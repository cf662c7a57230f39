import QueryAlgebra.Sql.Token
import QueryAlgebra.Text.Quoted
import Mathlib.Data.List.Basic

/-!
# Texts of words

A text that is made of words with blanks between them is split into these words again, whatever
blanks, quotes and brackets stand inside the words.

* `Lexer.Solid`: characters that the reader adds to its current token, from some depth on.
* `Word`, `Enclosed`: texts that are one token, and texts that are one token in parentheses.
* `Reads`: the tokens that the reader has completed at the end of a text, and the one it is at.
* `Legible`: texts that end with a word; `Legible.tokens_spaced` reads two of them in turn.
-/

namespace QueryAlgebra.Sql

open Text (isBlank doubled encode)

namespace Lexer

/-- The reader with characters added to its current token. -/
def add (l : Lexer) (cs : List Char) : Lexer := { l with current := cs.reverse ++ l.current }

@[simp] theorem add_quote (l : Lexer) (cs : List Char) : (l.add cs).quote = l.quote := rfl

@[simp] theorem add_depth (l : Lexer) (cs : List Char) : (l.add cs).depth = l.depth := rfl

theorem add_add (l : Lexer) (cs ds : List Char) : (l.add cs).add ds = l.add (cs ++ ds) := by
  simp [add, List.reverse_append, List.append_assoc]

theorem keep_eq_add (l : Lexer) (c : Char) : l.keep c = l.add [c] := rfl

/-- Inside of quotes nothing matters but the quote, and a doubled one opens what it has closed. -/
theorem run_quoted {quotes : List Char} {q : Char} (hq : q ∈ quotes) (body : List Char) {l : Lexer}
    (hl : l.quote = none) :
    l.run quotes ([q] ++ encode q body ++ [q]) = l.add ([q] ++ encode q body ++ [q]) := by
  have opened : ∀ l : Lexer, l.quote = none →
      l.run quotes [q] = { l.add [q] with quote := some q } := by
    intro l hl
    simp [run, step, hl, hq, keep_eq_add]
  have closed : ∀ l : Lexer, l.quote = some q →
      l.run quotes [q] = { l.add [q] with quote := none } := by
    intro l hl
    simp [run, step, hl, keep_eq_add]
  have inside : ∀ (cs : List Char) (l : Lexer), l.quote = some q →
      l.run quotes (encode q cs) = l.add (encode q cs) := by
    intro cs
    induction cs with
    | nil => exact fun _ _ => rfl
    | cons c cs ih =>
      intro l hl
      have head : l.run quotes (if c = q then [q, q] else [c])
          = l.add (if c = q then [q, q] else [c]) := by
        by_cases hc : c = q
        · rw [if_pos hc, show [q, q] = [q] ++ [q] from rfl, run_append, closed l hl, opened _ rfl]
          simp [add, hl]
        · simp [run, step, hl, hc, keep_eq_add]
      rw [Text.encode_cons, run_append, head, ih (l.add _) hl, add_add]
  rw [run_append, run_append, opened l hl, inside _ _ rfl, closed _ rfl]
  simp [add, hl]

/-- Outside of quotes and at the depth or below it, the characters become part of the current
token. -/
def Solid (depth : Int) (cs : List Char) : Prop :=
  ∀ l : Lexer, l.quote = none → depth ≤ l.depth → l.run standardQuotes cs = l.add cs

namespace Solid

variable {d e : Int} {cs ds : List Char}

theorem nil : Solid d [] := fun _ _ _ => rfl

theorem append (hc : Solid d cs) (hd : Solid d ds) : Solid d (cs ++ ds) := by
  intro l hq hl
  rw [run_append, hc l hq hl, hd (l.add cs) hq hl, add_add]

theorem deeper (h : Solid d cs) (hde : d ≤ e) : Solid e cs :=
  fun l hq hl => h l hq (Int.le_trans hde hl)

/-- A character that neither opens nor closes anything. -/
theorem plain {c : Char} (quote : c ∉ standardQuotes) (bracket : c ∉ ['(', '[', ')', ']'])
    (blank : isBlank c = true → 0 < d) : Solid d [c] := by
  intro l hq hl
  simp only [List.mem_cons, List.not_mem_nil, or_false, not_or] at bracket
  obtain ⟨open₁, open₂, close₁, close₂⟩ := bracket
  have inside : ¬(l.depth = 0 ∧ isBlank c = true) := fun h => by
    have := blank h.2
    omega
  simp [run, step, hq, quote, open₁, open₂, close₁, close₂, inside, keep_eq_add]

theorem of_forall (h : ∀ c ∈ cs, Solid d [c]) : Solid d cs := by
  induction cs with
  | nil => exact nil
  | cons c cs ih =>
    have first : Solid d [c] := h c List.mem_cons_self
    exact first.append (ih fun x hx => h x (List.mem_cons_of_mem c hx))

/-- What is solid one level down is solid between brackets. -/
theorem bracketed {o c : Char} (ho : o ∈ ['(', '[']) (hc : c ∈ [')', ']'])
    (h : Solid (d + 1) cs) : Solid d ([o] ++ cs ++ [c]) := by
  rintro ⟨ts, cur, n, _⟩ rfl hl
  have opened : (⟨ts, cur, n, none⟩ : Lexer).run standardQuotes [o] = ⟨ts, o :: cur, n + 1, none⟩ := by
    rcases List.mem_pair.1 ho with rfl | rfl <;> rfl
  have closed : ∀ cur : List Char,
      (⟨ts, cur, n + 1, none⟩ : Lexer).run standardQuotes [c] = ⟨ts, c :: cur, n + 1 - 1, none⟩ := by
    intro cur
    rcases List.mem_pair.1 hc with rfl | rfl <;> rfl
  rw [run_append, run_append, opened, h _ rfl (Int.add_le_add_right hl 1), add, closed]
  simp [add]

theorem quoted {q : Char} (hq : q ∈ standardQuotes) (body : List Char) :
    Solid d ([q] ++ encode q body ++ [q]) := fun _ hl _ => run_quoted hq body hl

end Solid

end Lexer

open Lexer (Solid)

/-- The tokens of a text, for the standard quotes. -/
def tokens (text : String) : List String := outerTokens standardQuotes text

/-! ### Words -/

/-- A text that is one token wherever it stands. -/
def Word (text : String) : Prop := text ≠ "" ∧ Solid 0 text.toList

/-- A text that is one token when it stands in parentheses. -/
def Enclosed (text : String) : Prop := Solid 1 text.toList

theorem Enclosed.append {t u : String} (ht : Enclosed t) (hu : Enclosed u) : Enclosed (t ++ u) := by
  unfold Enclosed
  rw [String.toList_append]
  exact Solid.append ht hu

/-- Characters that open and close nothing, blanks included. -/
def isPlain (c : Char) : Bool := !List.contains ['\'', '"', '(', '[', ')', ']'] c

theorem Enclosed.of_plain {t : String} (h : t.toList.all isPlain = true) : Enclosed t := by
  refine Solid.of_forall fun c hc => ?_
  have hc := List.all_eq_true.1 h c hc
  simp only [isPlain, Bool.not_eq_true', List.contains_eq_mem, List.mem_cons, List.not_mem_nil,
    or_false, decide_eq_false_iff_not, not_or] at hc
  exact Solid.plain (by simp [standardQuotes, hc]) (by simp [hc]) fun _ => Int.one_pos

namespace Word

theorem enclosed {t : String} (h : Word t) : Enclosed t := Solid.deeper h.2 Int.one_nonneg

theorem of_plain {t : String} (ne : t ≠ "")
    (h : (t.toList.all fun c => isPlain c && !isBlank c) = true) : Word t := by
  refine ⟨ne, Solid.of_forall fun c hc => ?_⟩
  have hc := List.all_eq_true.1 h c hc
  simp only [isPlain, Bool.and_eq_true, Bool.not_eq_true', List.contains_eq_mem, List.mem_cons,
    List.not_mem_nil, or_false, decide_eq_false_iff_not, not_or] at hc
  exact Solid.plain (by simp [standardQuotes, hc]) (by simp [hc]) fun hb => by simp [hc.2] at hb

theorem append {t u : String} (ht : Word t) (hu : Word u) : Word (t ++ u) := by
  refine ⟨fun h => ht.1 (String.append_eq_empty_iff.1 h).1, ?_⟩
  rw [String.toList_append]
  exact ht.2.append hu.2

theorem doubled {q : Char} (hq : q ∈ standardQuotes) (name : String) : Word (doubled q name) := by
  refine ⟨fun h => ?_, ?_⟩
  · simpa [Text.doubled] using congrArg String.toList h
  · rw [Text.doubled, String.toList_ofList]
    exact Solid.quoted hq name.toList

theorem parens {t : String} (h : Enclosed t) : Word ("(" ++ t ++ ")") := by
  refine ⟨fun hp => ?_, ?_⟩
  · simpa using congrArg String.toList hp
  · simpa [String.toList_append] using Solid.bracketed (d := 0) (o := '(') (c := ')') (by simp) (by simp) h

theorem brackets {t : String} (h : Enclosed t) : Word ("[" ++ t ++ "]") := by
  refine ⟨fun hp => ?_, ?_⟩
  · simpa using congrArg String.toList hp
  · simpa [String.toList_append] using Solid.bracketed (d := 0) (o := '[') (c := ']') (by simp) (by simp) h

end Word

/-! ### Words with blanks between them -/

/-- At the end of the text the reader has completed some tokens and is at another one. -/
def Reads (text : String) (done : List String) (last : String) : Prop :=
  ∀ before : List (List Char),
    (⟨before, [], 0, none⟩ : Lexer).run standardQuotes text.toList
      = ⟨before ++ done.map String.toList, last.toList.reverse, 0, none⟩

theorem toList_ne_nil {w : String} (h : w ≠ "") : w.toList ≠ [] :=
  fun hw => h (String.toList_eq_nil_iff.1 hw)

/-- The blank behind a token completes it. -/
theorem Reads.blank {t : String} {ts : List String} {w : String} (h : Reads t ts w) (hw : w ≠ "") :
    Reads (t ++ " ") (ts ++ [w]) "" := by
  intro before
  rw [String.toList_append, Lexer.run_append, h before]
  simp [Lexer.run, Lexer.step, standardQuotes, isBlank, Lexer.close, toList_ne_nil hw]

theorem Reads.append {t u : String} {ts us : List String} {v : String} (h : Reads t ts "")
    (h' : Reads u us v) : Reads (t ++ u) (ts ++ us) v := by
  intro before
  rw [String.toList_append, Lexer.run_append, h before, String.toList_empty, List.reverse_nil, h' _]
  simp

theorem Reads.tokens {t : String} {ts : List String} {w : String} (h : Reads t ts w) (hw : w ≠ "") :
    tokens t = ts ++ [w] := by
  unfold Sql.tokens outerTokens Lexer.start
  rw [h []]
  simp [Lexer.close, toList_ne_nil hw, Function.comp_def]

/-- A text of words: it can stand in parentheses, and at its end the reader is at its last word. -/
structure Legible (text : String) : Prop where
  enclosed : Enclosed text
  reads    : ∃ done last, last ≠ "" ∧ Reads text done last

theorem Word.reads {w : String} (h : Word w) : Reads w [] w := by
  intro before
  rw [h.2 _ rfl (Int.le_refl 0)]
  simp [Lexer.add]

theorem Word.legible {w : String} (h : Word w) : Legible w := ⟨h.enclosed, [], w, h.1, h.reads⟩

theorem Word.tokens {w : String} (h : Word w) : tokens w = [w] := h.reads.tokens h.1

theorem enclosed_blank : Enclosed " " := .of_plain rfl

namespace Legible

variable {t u : String} {ts : List String}

theorem tokens_ne_nil (h : Legible t) : tokens t ≠ [] := by
  obtain ⟨ts, w, hw, reads⟩ := h.reads
  simp [reads.tokens hw]

theorem spaced (ht : Legible t) (hu : Legible u) : Legible (t ++ " " ++ u) := by
  obtain ⟨ts, w, hw, reads⟩ := ht.reads
  obtain ⟨us, v, hv, reads'⟩ := hu.reads
  exact ⟨(ht.enclosed.append enclosed_blank).append hu.enclosed, _, v, hv,
    (reads.blank hw).append reads'⟩

/-- **Two texts with a blank between them** have the tokens of both. -/
theorem tokens_spaced (ht : Legible t) (hu : Legible u) :
    tokens (t ++ " " ++ u) = tokens t ++ tokens u := by
  obtain ⟨ts, w, hw, reads⟩ := ht.reads
  obtain ⟨us, v, hv, reads'⟩ := hu.reads
  rw [((reads.blank hw).append reads').tokens hv, reads.tokens hw, reads'.tokens hv]
  simp

/-- A character that opens and closes nothing becomes part of the last word. -/
theorem mark {m : String} (ht : Legible t) (hm : Word m) :
    Legible (t ++ m) ∧
      ∃ ts w, tokens t = ts ++ [w] ∧ tokens (t ++ m) = ts ++ [w ++ m] := by
  obtain ⟨ts, w, hw, reads⟩ := ht.reads
  have reads' : Reads (t ++ m) ts (w ++ m) := by
    intro before
    rw [String.toList_append, Lexer.run_append, reads before, hm.2 _ rfl (Int.le_refl 0)]
    simp [Lexer.add]
  have ne : w ++ m ≠ "" := fun h => hw (String.append_eq_empty_iff.1 h).1
  exact ⟨⟨ht.enclosed.append hm.enclosed, ts, _, ne, reads'⟩, ts, w, reads.tokens hw,
    reads'.tokens ne⟩

/-- A second blank between two texts makes no difference. -/
theorem gap (ht : Legible t) (hu : Legible u) :
    Legible (t ++ " " ++ "" ++ " " ++ u) ∧
      tokens (t ++ " " ++ "" ++ " " ++ u) = tokens t ++ tokens u := by
  obtain ⟨ts, w, hw, reads⟩ := ht.reads
  obtain ⟨us, v, hv, reads'⟩ := hu.reads
  have blank : Reads " " [] "" := by
    intro before
    simp [Lexer.run, Lexer.step, standardQuotes, isBlank, Lexer.close]
  have whole := (((reads.blank hw).append blank).append reads')
  have same : t ++ " " ++ "" ++ " " ++ u = t ++ " " ++ " " ++ u := by simp
  rw [same]
  refine ⟨⟨((ht.enclosed.append enclosed_blank).append enclosed_blank).append hu.enclosed, _, v, hv,
    whole⟩, ?_⟩
  rw [whole.tokens hv, reads.tokens hw, reads'.tokens hv]
  simp

theorem listed (h : ∀ t ∈ ts, Legible t) (ne : ts ≠ []) :
    Legible (" ".intercalate ts) ∧ tokens (" ".intercalate ts) = ts.flatMap tokens := by
  induction ts with
  | nil => exact absurd rfl ne
  | cons t r ih =>
    obtain ⟨ht, hr⟩ := List.forall_mem_cons.1 h
    cases r with
    | nil => simpa using ht
    | cons u r =>
      obtain ⟨legible, same⟩ := ih hr (by simp)
      rw [String.intercalate_cons_cons]
      exact ⟨ht.spaced legible, by rw [ht.tokens_spaced legible, same]; simp⟩

/-- Plain words with blanks between them. -/
theorem phrase (ws : List String)
    (h : (ws.all fun w => w != "" && w.toList.all fun c => isPlain c && !isBlank c) = true)
    (ne : ws ≠ []) : Legible (" ".intercalate ws) ∧ tokens (" ".intercalate ws) = ws := by
  have words : ∀ w ∈ ws, Word w := fun w hw => by
    have hw := List.all_eq_true.1 h w hw
    rw [Bool.and_eq_true] at hw
    exact .of_plain (by simpa using hw.1) hw.2
  obtain ⟨legible, same⟩ := listed (fun w hw => (words w hw).legible) ne
  refine ⟨legible, same.trans ?_⟩
  rw [List.flatMap_congr (g := fun w => [w]) fun w hw => (words w hw).tokens]
  simp

end Legible

end QueryAlgebra.Sql
