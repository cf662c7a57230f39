import QueryAlgebra.Proofs.Instant.Spelled
import QueryAlgebra.Proofs.Kind.Recast
import QueryAlgebra.Proofs.Sql.Literal
import QueryAlgebra.Proofs.Sql.Quoting
import QueryAlgebra.Proofs.Translation.Image

/-!
# What literals stand for

The grammar of literals, and what a literal of it stands for. A text that is written for a literal belongs
to it exactly if all numbers are finite and all years have four digits: infinity has no token, and years are
not padded.

* `Spells`, `Denotes`: the literals of a kind and the values they stand for.
* `Value.Writable`: values with finite numbers and years of four digits.
* `Framed`: outlines by which literals of a kind are told apart, also where one follows another in a list.
* `denotes_iff`: the text of a value is a literal for it exactly if the value is writable.
* `literals_spelled`: what the backend that writes text makes of literals.
-/

namespace QueryAlgebra

open Translation

namespace Value

/-- The value itself is neither a number that is not finite nor a date of a year without four digits. -/
def Moderate : Value → Prop
  | .number n      => n.isFinite = true
  | .date (some t) => 1000 ≤ t.day.year ∧ t.day.year ≤ 9999
  | _              => True

instance : ∀ v : Value, Decidable v.Moderate
  | .number n      => inferInstanceAs (Decidable (n.isFinite = true))
  | .date (some _) => inferInstanceAs (Decidable (_ ∧ _))
  | .absent | .null | .bool _ | .text _ | .date none | .list _ | .dict _ | .record _ => .isTrue trivial

/-- The value and all its parts are moderate. -/
inductive Writable : Value → Prop
  | intro {v : Value} (own : v.Moderate) (parts : ∀ w ∈ v.parts, w.Writable) : v.Writable

theorem writable_list {vs : List Value} : (list vs).Writable ↔ ∀ v ∈ vs, v.Writable :=
  ⟨fun ⟨_, parts⟩ => parts, fun items => ⟨trivial, items⟩⟩

theorem writable_of_scalar {v : Value} {p : Primitive} (scalar : Primitive.ofValue? v = some p) :
    v.Writable ↔ v.Moderate := by
  refine ⟨fun ⟨own, _⟩ => own, fun own => ⟨own, ?_⟩⟩
  have whole : v.parts = [] := by cases v <;> first | rfl | cases scalar
  simp [whole]

end Value

namespace Sql

/-! ### The grammar -/

/-- The text is a literal of the primitive kind, and stands for the value. Zeros have one text. -/
inductive Spells : Primitive → Value → String → Prop
  | yes : Spells .boolean (.bool true) "TRUE"
  | no : Spells .boolean (.bool false) "FALSE"
  | number {p : Primitive} {n : Number} {cs : List Char} (numeric : p.isNumeric = true)
      (token : Number.Token cs n.unsignedZero) : Spells p (.number n) (String.ofList cs)
  | string {s : String} {cs : List Char} (body : Text.decode '\'' cs = some s.toList) :
    Spells .string (.text s) (String.ofList ('\'' :: (cs ++ ['\''])))
  | date {t : Instant} {n : Int} {ds : List Char} (day : DayText (.ofNumber n) ds)
      (start : t.millis = n * millisPerDay) :
    Spells .date (.date (some t)) ("DATE '" ++ String.ofList ds ++ "'")
  | timestamp {t : Instant} {n : Int} {time : Nat} {ds cs : List Char}
      (day : DayText (.ofNumber n) ds) (clock : ClockText time cs)
      (point : t.millis * 1000 = n * millisPerDay * 1000 + time) :
    Spells .timestamp (.date (some t)) ("TIMESTAMP '" ++ String.ofList (ds ++ ' ' :: cs) ++ "'")

/-- The text is a literal of the kind, and stands for the value. -/
def Denotes : Kind → Value → String → Prop
  | .primitive p, v, t => Spells p v t
  | .array e,     v, t => ∃ vs ts, v = .list vs ∧ List.Forall₂ (Denotes e) vs ts ∧
    t = "ARRAY[" ++ String.intercalate ", " ts ++ "]"
  | _,            _, _ => False

/-! ### Literals of primitive kinds -/

theorem spells_number_iff {p : Primitive} (numeric : p.isNumeric = true) (n : Number) :
    Spells p (.number n) n.text ↔ n.isFinite = true := by
  constructor
  · intro h
    generalize spelled : n.text = t at h
    cases h with
    | number _ token =>
      refine Number.isFinite_of_token (m := n.unsignedZero) ?_
      rwa [spelled, String.toList_ofList]
  · intro finite
    have token := Spells.number numeric (Number.token_text finite)
    rwa [String.ofList_toList] at token

theorem spells_date_iff {x : Instant} (start : x.millis = x.dayNumber * millisPerDay) :
    Spells .date (.date (some x)) ("DATE '" ++ x.dateText ++ "'") ↔
      1000 ≤ x.day.year ∧ x.day.year ≤ 9999 := by
  constructor
  · intro h
    generalize spelled : "DATE '" ++ x.dateText ++ "'" = t at h
    cases h with
    | date day =>
      refine x.four_of_dayText (r := ['\'']) (s := ['\'']) day ?_
      simpa using congrArg String.toList spelled
  · intro four
    have day := Spells.date (Instant.dayText_dateText four) start
    rwa [String.ofList_toList] at day

theorem spells_timestamp_iff {x : Instant} :
    Spells .timestamp (.date (some x)) ("TIMESTAMP '" ++ x.timestampText ++ "'") ↔
      1000 ≤ x.day.year ∧ x.day.year ≤ 9999 := by
  constructor
  · intro h
    generalize spelled : "TIMESTAMP '" ++ x.timestampText ++ "'" = t at h
    cases h with
    | @timestamp _ _ _ ds cs day =>
      refine x.four_of_dayText (r := ' ' :: (x.fineClock.toList ++ ['\'']))
        (s := ' ' :: (cs ++ ['\''])) day ?_
      simpa [x.toList_timestampText] using congrArg String.toList spelled
  · intro four
    have point : x.millis * 1000 = x.dayNumber * millisPerDay * 1000 + (x.timeOfDay * 1000 : Nat) := by
      have := x.millis_eq
      omega
    have spelled := Spells.timestamp (Instant.dayText_dateText four) x.clockText_fineClock point
    rwa [← x.toList_timestampText, String.ofList_toList] at spelled

/-- **The text of a value of a primitive kind is a literal for it exactly if the value is moderate.** -/
theorem spells_iff {p : Primitive} {v : Value} (represents : (Kind.primitive p).Represents v) {t : String}
    (text : literalText (.primitive p) v = .ok t) : Spells p v t ↔ v.Moderate := by
  cases represents with
  | boolean b =>
    obtain rfl := Except.ok.inj text
    cases b with
    | false => exact iff_of_true .no trivial
    | true => exact iff_of_true .yes trivial
  | integer =>
    obtain rfl := Except.ok.inj text
    exact spells_number_iff rfl _
  | float =>
    obtain rfl := Except.ok.inj text
    exact spells_number_iff rfl _
  | decimal =>
    obtain rfl := Except.ok.inj text
    exact spells_number_iff rfl _
  | string s =>
    obtain rfl := Except.ok.inj text
    exact iff_of_true (.string (Text.decode_encode '\'' s.toList)) trivial
  | date start =>
    obtain rfl := Except.ok.inj text
    exact spells_date_iff (Instant.millis_midnight start)
  | timestamp =>
    obtain rfl := Except.ok.inj text
    exact spells_timestamp_iff

/-! ### Literals in lists -/

/-- The outline of a literal of the kind: letters of a number or a word, or what stands between quotes or
brackets. -/
def Framed : Kind → String → Prop
  | .primitive .string,    t => ∃ s, t = Text.doubled '\'' s
  | .primitive .date,      t => ∃ s, '\'' ∉ s.toList ∧ t = "DATE '" ++ s ++ "'"
  | .primitive .timestamp, t => ∃ s, '\'' ∉ s.toList ∧ t = "TIMESTAMP '" ++ s ++ "'"
  | .primitive .boolean,   t => t = "TRUE" ∨ t = "FALSE"
  | .primitive _,          t => t ≠ "" ∧ ∀ c ∈ t.toList, Number.isWord c = true
  | .array e,              t => ∃ ts, (∀ u ∈ ts, Framed e u) ∧ t = "ARRAY[" ++ listed ts ++ "]"
  | _,                     _ => False

theorem framed_number {p : Primitive} (numeric : p.isNumeric = true) {t : String} :
    Framed (.primitive p) t ↔ t ≠ "" ∧ ∀ c ∈ t.toList, Number.isWord c = true := by
  cases p <;> first | exact Iff.rfl | cases numeric

/-- A literal has the outline of one. -/
theorem framed_of_denotes : ∀ {k : Kind} {v : Value} {t : String}, Denotes k v t → Framed k t
  | .primitive p, v, t, h => by
    cases (h : Spells p v t) with
    | yes => exact .inl rfl
    | no => exact .inr rfl
    | number numeric token =>
      refine (framed_number numeric).2 ⟨fun empty => token.ne_nil (by simpa using empty), fun c hc => ?_⟩
      simp [Number.isWord, token.isNumeral_of_mem c (by simpa using hc)]
    | @string s _ body =>
      refine ⟨s, ?_⟩
      rw [Text.decode_eq_some_iff.1 body]
      rfl
    | date day =>
      refine ⟨_, fun quote => ?_, rfl⟩
      rcases day.chars _ (by simpa using quote) with h | h <;> simp at h
    | timestamp day clock =>
      refine ⟨_, fun quote => ?_, rfl⟩
      rw [String.toList_ofList, List.mem_append, List.mem_cons] at quote
      rcases quote with h | h | h
      · rcases day.chars _ h with h | h <;> simp at h
      · simp at h
      · rcases clock.chars _ h with h | h | h <;> simp at h
  | .array e, v, t, h => by
    obtain ⟨vs, ts, -, each, rfl⟩ := h
    exact ⟨ts, forall_right_of_forall₂ (fun _ _ h => framed_of_denotes h) each, rfl⟩

theorem framed_primitive {p : Primitive} {v : Value} (represents : (Kind.primitive p).Represents v)
    {t : String} (text : literalText (.primitive p) v = .ok t) : Framed (.primitive p) t := by
  have number : ∀ n : Number, n.text ≠ "" ∧ ∀ c ∈ n.text.toList, Number.isWord c = true := fun n =>
    ⟨n.text_ne_empty, Number.isWord_of_mem_text n⟩
  cases represents with
  | boolean b =>
    obtain rfl := Except.ok.inj text
    cases b with
    | false => exact .inr rfl
    | true => exact .inl rfl
  | integer | float | decimal =>
    obtain rfl := Except.ok.inj text
    exact number _
  | string s =>
    obtain rfl := Except.ok.inj text
    exact ⟨s, rfl⟩
  | date =>
    obtain rfl := Except.ok.inj text
    refine ⟨_, fun quote => ?_, rfl⟩
    rcases dateText_chars _ _ quote with h | h <;> simp at h
  | timestamp =>
    obtain rfl := Except.ok.inj text
    refine ⟨_, fun quote => ?_, rfl⟩
    rcases timestampText_chars _ _ quote with h | h <;> simp at h

/-- What is written for a value that was cast to the kind has the outline of a literal. -/
theorem framed_literalText : ∀ {k : Kind} {v : Value}, (∃ u, k.cast u = .ok v) →
    ∀ {t : String}, literalText k v = .ok t → Framed k t
  | .primitive p, v, ⟨u, cast⟩, t, text =>
    framed_primitive (Kind.represents_of_cast? (Kind.cast_primitive_eq_ok.1 cast)) text
  | .array e, v, made, t, text => by
    obtain ⟨ws, ts, -, each, rfl⟩ := literalText_array made text
    exact ⟨ts, forall_right_of_forall₂ (fun _ _ h => framed_literalText h.1 h.2) each, rfl⟩

/-- No literal begins with a mark that closes a list. -/
theorem framed_head {k : Kind} {t : String} (h : Framed k t) :
    ∃ c, t.toList.head? = some c ∧ c ∉ Text.closers := by
  cases k with
  | primitive p =>
    cases p with
    | integer | float | decimal =>
      obtain ⟨c, r, head⟩ := List.exists_cons_of_ne_nil (show t.toList ≠ [] by simpa using h.1)
      have word := h.2 c (by simp [head])
      refine ⟨c, by simp [head], fun closes => ?_⟩
      have none : ∀ x ∈ Text.closers, Number.isWord x = false := by
        simp [Text.closers, Number.isWord, Value.isNumeral]
      rw [none c closes] at word
      cases word
    | string =>
      obtain ⟨s, rfl⟩ := h
      exact ⟨'\'', by simp [Text.doubled], by decide⟩
    | date =>
      obtain ⟨s, -, rfl⟩ := h
      exact ⟨'D', by simp, by decide⟩
    | timestamp =>
      obtain ⟨s, -, rfl⟩ := h
      exact ⟨'T', by simp, by decide⟩
    | boolean =>
      obtain rfl | rfl := h
      · exact ⟨'T', by simp, by decide⟩
      · exact ⟨'F', by simp, by decide⟩
  | array e =>
    obtain ⟨ts, -, rfl⟩ := h
    exact ⟨'A', by simp, by decide⟩
  | map | struct => exact h.elim

theorem not_closes_framed {k : Kind} {t : String} (h : Framed k t) (r : List Char) :
    ¬Text.Closes (t.toList ++ r) := by
  obtain ⟨c, head, other⟩ := framed_head h
  obtain ⟨u, head⟩ := List.head?_eq_some_iff.1 head
  rw [head]
  exact Text.not_closes_cons other

/-- What stands between single quotes is told apart, if it holds none. -/
theorem typed_inj {name s u : String} (hs : '\'' ∉ s.toList) (hu : '\'' ∉ u.toList)
    {r r' : List Char} (h : (name ++ s ++ "'").toList ++ r = (name ++ u ++ "'").toList ++ r') : s = u ∧ r = r' := by
  have other : ∀ {v : String}, '\'' ∉ v.toList → ∀ c ∈ v.toList, (c != '\'') = true := fun h _ hc =>
    bne_iff_ne.2 fun same => h (same ▸ hc)
  obtain ⟨same, rest⟩ := Text.takeWhile_append_inj (· != '\'') (other hs) (other hu) (by decide)
    (by decide) (by simpa using h : s.toList ++ '\'' :: r = u.toList ++ '\'' :: r')
  exact ⟨String.toList_inj.1 same, (List.cons.inj rest).2⟩

/-- **Scalars of one kind are told apart by what is written.** -/
theorem framed_reads_primitive {p : Primitive} {t : String} (h : Framed (.primitive p) t) :
    Text.ReadsAt id id (Framed (.primitive p)) t := by
  rintro u hu _ _ ⟨c, r, rfl, hc⟩ ⟨c', r', rfl, hc'⟩ text
  cases p with
  | integer | float | decimal =>
    have stop : ∀ x ∈ Text.stoppers, Number.isWord x = false := by
      simp [Text.stoppers, Text.closers, Number.isWord, Value.isNumeral]
    obtain ⟨same, rest⟩ :=
      Text.takeWhile_append_inj Number.isWord h.2 hu.2 (stop c hc) (stop c' hc') text
    exact ⟨String.toList_inj.1 same, rest⟩
  | string =>
    obtain ⟨s, rfl⟩ := h
    obtain ⟨w, rfl⟩ := hu
    have behind : ∀ x ∈ Text.stoppers, some x ≠ some '\'' := by simp [Text.stoppers, Text.closers]
    have read := Text.readQuoted_doubled '\'' s (r := c :: r) (behind c hc)
    simp only [id] at text
    rw [text, Text.readQuoted_doubled '\'' w (r := c' :: r') (behind c' hc')] at read
    obtain ⟨same, rest⟩ := Prod.mk.inj (Option.some.inj read)
    rw [String.toList_inj.1 same]
    exact ⟨rfl, rest.symm⟩
  | date =>
    obtain ⟨s, hs, rfl⟩ := h
    obtain ⟨w, hw, rfl⟩ := hu
    obtain ⟨rfl, rest⟩ := typed_inj hs hw text
    exact ⟨rfl, rest⟩
  | timestamp =>
    obtain ⟨s, hs, rfl⟩ := h
    obtain ⟨w, hw, rfl⟩ := hu
    obtain ⟨rfl, rest⟩ := typed_inj hs hw text
    exact ⟨rfl, rest⟩
  | boolean =>
    rcases h with rfl | rfl <;> rcases hu with rfl | rfl <;> simp_all

/-- The items of a list are told apart if single ones are. -/
theorem items_inj {k : Kind} (single : ∀ {t}, Framed k t → Text.ReadsAt id id (Framed k) t)
    {ts us : List String} (hts : ∀ t ∈ ts, Framed k t) (hus : ∀ u ∈ us, Framed k u) {r s : List Char}
    (h : (listed ts).toList ++ ']' :: r = (listed us).toList ++ ']' :: s) : ts = us ∧ r = s := by
  have closes : ∀ r, Text.Closes (']' :: r) := fun r => Text.closes_cons r (by decide)
  unfold listed at h
  rw [← List.map_id ts, ← List.map_id us] at h
  obtain ⟨same, rest⟩ := Text.listed_inj (s := [' ']) (by simp) (fun _ => not_closes_framed) hts
    (fun t ht => single (hts t ht)) hus (closes r) (closes s) h
  exact ⟨by simpa using same, (List.cons.inj rest).2⟩

/-- **Literals of one kind are told apart by what is written**, whatever stands behind them. -/
theorem framed_reads : ∀ {k : Kind} {t : String}, Framed k t → Text.ReadsAt id id (Framed k) t
  | .primitive p, _, h => framed_reads_primitive h
  | .array e, _, h => by
    rintro _ hu r r' - - text
    obtain ⟨ts, hts, rfl⟩ := h
    obtain ⟨us, hus, rfl⟩ := hu
    obtain ⟨rfl, rest⟩ := items_inj framed_reads hts hus (by simpa using text)
    exact ⟨rfl, rest⟩

/-! ### Literals -/

/-- **What is written for a value is a literal for it exactly if the value is writable.** -/
theorem denotes_iff : ∀ {k : Kind} {v : Value}, (∃ u, k.cast u = .ok v) → ∀ {t : String},
    literalText k v = .ok t → (Denotes k v t ↔ v.Writable)
  | .primitive p, v, ⟨u, cast⟩, t, text => by
    have represents := Kind.represents_of_cast? (Kind.cast_primitive_eq_ok.1 cast)
    obtain ⟨q, scalar⟩ := Kind.scalar_of_represents represents
    exact (spells_iff represents text).trans (Value.writable_of_scalar scalar).symm
  | .array e, v, made, t, text => by
    obtain ⟨ws, ts, rfl, each, rfl⟩ := literalText_array made text
    have single : List.Forall₂ (fun w t => Framed e t ∧ (Denotes e w t ↔ w.Writable)) ws ts :=
      each.imp fun w t h => ⟨framed_literalText h.1 h.2, denotes_iff h.1 h.2⟩
    rw [Value.writable_list]
    constructor
    · rintro ⟨vs, ls, same, denote, text⟩
      obtain rfl := Value.list.inj same
      have text : "ARRAY[" ++ listed ts ++ "]" = "ARRAY[" ++ listed ls ++ "]" := text
      -- The text has one division into items, so the items denoted are those that were written.
      have framed : ∀ t ∈ ts, Framed e t := forall_right_of_forall₂ (fun _ _ h => h.1) single
      have framed' : ∀ t ∈ ls, Framed e t :=
        forall_right_of_forall₂ (fun _ _ h => framed_of_denotes h) denote
      obtain ⟨rfl, -⟩ := items_inj (r := []) (s := []) framed_reads framed framed'
        (by simpa using congrArg String.toList text)
      intro w hw
      obtain ⟨t, -, ⟨-, iff⟩, denotes⟩ :=
        exists_mem_of_forall₂ (single.mp (fun _ _ => And.intro) denote) w hw
      exact iff.1 denotes
    · intro writable
      exact ⟨ws, ts, rfl, ((List.forall₂_and_left _ _).2 ⟨writable, single⟩).imp
        fun _ _ h => h.2.2.2 h.1, rfl⟩
  | .map _ _, v, _, t, text => by simp [literalText] at text
  | .struct _, v, _, t, text => by simp [literalText] at text

/-! ### Whole translations -/

/-- What an array holds at last, if it is one of arrays. -/
def innermost : Kind → Kind
  | .array e => innermost e
  | k        => k

/-- Where a value that was cast has no literal, the innermost kind is named. -/
theorem literalText_eq_error : ∀ {k : Kind} {v : Value}, (∃ u, k.cast u = .ok v) → ∀ {f : Fault},
    literalText k v = .error f → f = .literalKind (innermost k).text
  | .primitive p, v, ⟨u, cast⟩, f, refused => by
    obtain ⟨t, text⟩ := literalText_cast (k := .primitive p) trivial cast
    rw [text] at refused
    cases refused
  | .array e, v, made, f, refused => by
    obtain ⟨ws, rfl, cast⟩ := items_of_cast made
    cases texts : ws.mapM fun w => literalText e w with
    | ok ts =>
      simp only [literalText, texts] at refused
      cases refused
    | error f' =>
      simp only [literalText, texts] at refused
      obtain rfl : f' = f := Except.error.inj refused
      obtain ⟨w, hw, item⟩ := exists_mem_of_mapM_error texts
      exact literalText_eq_error (cast w hw) item
  | .map _ _, v, _, f, refused => by simpa [literalText, innermost, eq_comm] using refused
  | .struct _, v, _, f, refused => by simpa [literalText, innermost, eq_comm] using refused

theorem compiled_literal (d : Dialect) (sources : KeyedMap Source String)
    (features : KeyedMap Feature String) (v : Value) (k : Kind) :
    (d.backend sources features).compiled (.feature (.literal v k))
      = (literalText k v).map fun t => some (.feature t) := by
  rw [Backend.compiled, Translator.serve_finish _ State.clean_fresh]
  show (eval (directFinish (d.backend sources features) (.feature (.literal v k))) Bench.fresh).1.map some = _
  rw [eval_directFinish_feature]
  simp only [directFeature]
  show ((eval (Direct.settle (literalText k v)) (Bench.fresh : Bench String String)).1.map
    Symbol.feature).map some = _
  cases literalText k v <;> rfl

/-- **Literals that are written stand for their values.** A literal is refused as unsupported, which happens
only to kinds that are neither primitive nor arrays of such, or it has a text. The text stands for the value
exactly if all numbers in it are finite and all years have four digits. -/
theorem literals_spelled (d : Dialect) (sources : KeyedMap Source String)
    (features : KeyedMap Feature String) {v w : Value} {k? : Option Kind} {k : Kind}
    (made : Feature.literalOf v k? = .ok (.literal w k)) :
    (¬k.Encodable ∧ ∃ f : Fault, f.category = .unsupported ∧ f.subject? = some (innermost k).text ∧
      (d.backend sources features).compiled (.feature (.literal w k)) = .error f) ∨
    ∃ t, (d.backend sources features).compiled (.feature (.literal w k)) = .ok (some (.feature t)) ∧
      (Denotes k w t ↔ w.Writable) := by
  obtain ⟨_, _, cast, same⟩ := Feature.literalOf_eq_ok made
  obtain ⟨rfl, rfl⟩ := Feature.literal.inj same
  rw [compiled_literal]
  cases text : literalText k w with
  | error f =>
    obtain rfl := literalText_eq_error ⟨_, cast⟩ text
    refine .inl ⟨fun encodable => ?_, _, rfl, rfl, rfl⟩
    obtain ⟨t, found⟩ := literalText_cast encodable cast
    rw [found] at text
    cases text
  | ok t => exact .inr ⟨t, rfl, denotes_iff ⟨_, cast⟩ text⟩

/-- The last instant of a year of four digits, in lists of lists. -/
theorem literals_spelled_nested :
    let k : Kind := .array (.array (.primitive .timestamp))
    let late : Value := .date (some ⟨253402300799999, by decide⟩)
    let start : Value := .date (some ⟨-30610224000000, by decide⟩)
    let v : Value := .list [.list [late, start], .list []]
    Feature.literalOf v (some k) = .ok (.literal v k) ∧
      ∃ t, (Dialect.standard.backend .empty .empty).compiled (.feature (.literal v k))
          = .ok (some (.feature t)) ∧
        t = "ARRAY[ARRAY[TIMESTAMP '9999-12-31 23:59:59.999000', TIMESTAMP '1000-01-01 00:00:00'], "
          ++ "ARRAY[]]" ∧
        Denotes k v t := by
  intro k late start v
  have made : Feature.literalOf v (some k) = .ok (.literal v k) := rfl
  have text : (Dialect.standard.backend .empty .empty).compiled (.feature (.literal v k))
      = .ok (some (.feature ("ARRAY[ARRAY[TIMESTAMP '9999-12-31 23:59:59.999000', " ++
        "TIMESTAMP '1000-01-01 00:00:00'], ARRAY[]]"))) := by
    rw [compiled_literal]
    exact congrArg (fun t => Except.ok (some (Symbol.feature t))) (by decide +kernel)
  have scalar : ∀ {w : Value}, Primitive.ofValue? w = some .timestamp → w.Moderate → w.Writable :=
    fun scalar => (Value.writable_of_scalar scalar).2
  have writable : v.Writable := by
    simp only [v, Value.writable_list, List.forall_mem_cons]
    exact ⟨⟨scalar rfl (by decide), scalar rfl (by decide), nofun⟩, nofun, nofun⟩
  refine ⟨made, _, text, rfl, ?_⟩
  obtain ⟨other, -⟩ | ⟨t, compiled, denotes⟩ := literals_spelled .standard .empty .empty made
  · exact absurd trivial other
  · rw [text] at compiled
    cases compiled
    exact denotes.2 writable

/-- Infinity has no token, and a year of three digits is not padded. -/
theorem literals_not_spelled :
    let float : Kind := .primitive .float
    let date : Kind := .primitive .date
    let infinity : Value := .number (.infinite false)
    let early : Value := .date (some ⟨-57417292800000, by decide⟩)
    (Feature.literalOf infinity (some float) = .ok (.literal infinity float) ∧
      (Dialect.standard.backend .empty .empty).compiled (.feature (.literal infinity float))
        = .ok (some (.feature "Infinity")) ∧
      ¬Denotes float infinity "Infinity") ∧
    Feature.literalOf early (some date) = .ok (.literal early date) ∧
      (Dialect.standard.backend .empty .empty).compiled (.feature (.literal early date))
        = .ok (some (.feature "DATE '150-07-09'")) ∧
      ¬Denotes date early "DATE '150-07-09'" := by
  intro float date infinity early
  have made : Feature.literalOf infinity (some float) = .ok (.literal infinity float) := rfl
  have text : literalText float infinity = .ok "Infinity" := rfl
  have made' : Feature.literalOf early (some date) = .ok (.literal early date) := rfl
  have text' : literalText date early = .ok "DATE '150-07-09'" := congrArg Except.ok (by decide +kernel)
  refine ⟨⟨made, by rw [compiled_literal, text]; rfl, ?_⟩, made', by rw [compiled_literal, text']; rfl, ?_⟩
  · rw [denotes_iff ⟨infinity, rfl⟩ text, Value.writable_of_scalar rfl]
    exact Bool.false_ne_true
  · rw [denotes_iff ⟨early, rfl⟩ text', Value.writable_of_scalar rfl]
    decide

end Sql

end QueryAlgebra
