import QueryAlgebra.Proofs.Sql.Tokens
import QueryAlgebra.Sql.Inline

/-!
# Texts between quotes are read back

A name or a string stands between quotes, with every quote inside it doubled. The quote may be any
character, also a blank or a bracket.

* `Text.readQuoted`: a reader that takes a doubled quote for content and stops behind a single one.
* `Text.decode_eq_some_iff`: the only body that is read as a text is the encoded one.
* `Text.readQuoted_doubled`: the reader stops at the last quote, whatever comes behind it.
* `Readable`: a text between quotes that gives back what stands in it.
* `quoting_round_trips`: identifiers and strings are written so.
-/

namespace QueryAlgebra

namespace Text

/-- Reads up to the quote that ends a text, and gives what was read and what follows. A doubled quote stands
for a quote. -/
def readBody (q : Char) : List Char → Option (List Char × List Char)
  | []  => none
  | [c] => if c = q then some ([], []) else none
  | c :: d :: r =>
    if c ≠ q then (readBody q (d :: r)).map fun (cs, rest) => (c :: cs, rest)
    else if d = q then (readBody q r).map fun (cs, rest) => (q :: cs, rest)
    else some ([], d :: r)

/-- Reads a text that begins with a quote. -/
def readQuoted (q : Char) : List Char → Option (List Char × List Char)
  | []     => none
  | c :: r => if c = q then readBody q r else none

/-- **The only body that is read as a text is the encoded one.** -/
theorem decode_eq_some_iff {q : Char} {body cs : List Char} :
    decode q body = some cs ↔ body = encode q cs := by
  refine ⟨fun h => ?_, fun h => h ▸ decode_encode q cs⟩
  fun_induction decode q body generalizing cs with
  | case1 => cases h; rfl
  | case2 => cases h
  | case3 c other =>
    cases h
    simp [encode, other]
  | case4 r ih =>
    obtain ⟨ds, hds, rfl⟩ := Option.map_eq_some_iff.1 h
    rw [ih hds, encode_cons, if_pos rfl]
    rfl
  | case5 => cases h
  | case6 c d r other ih =>
    obtain ⟨ds, hds, rfl⟩ := Option.map_eq_some_iff.1 h
    rw [ih hds, encode_cons, if_neg other]
    rfl

theorem readBody_encode {q : Char} (cs : List Char) {r : List Char} (behind : r.head? ≠ some q) :
    readBody q (encode q cs ++ q :: r) = some (cs, r) := by
  induction cs with
  | nil =>
    cases r with
    | nil => simp [encode, readBody]
    | cons d r =>
      have other : d ≠ q := by simpa using behind
      simp [encode, readBody, other]
  | cons c cs ih =>
    by_cases hc : c = q
    · subst hc
      rw [encode_cons, if_pos rfl]
      simp [readBody, ih]
    · rw [encode_cons, if_neg hc, List.append_assoc, List.singleton_append]
      -- Something follows in any case, at least the last quote.
      obtain ⟨d, rest, hd⟩ : ∃ d rest, encode q cs ++ q :: r = d :: rest :=
        List.exists_cons_of_ne_nil (by simp)
      rw [hd] at ih ⊢
      simp [readBody, hc, ih]

/-- **The reader stops at the last quote of a text between quotes**, if no other quote comes behind it. -/
theorem readQuoted_doubled (q : Char) (s : String) {r : List Char} (behind : r.head? ≠ some q) :
    readQuoted q ((doubled q s).toList ++ r) = some (s.toList, r) := by
  have parts : (doubled q s).toList ++ r = q :: (encode q s.toList ++ q :: r) := by simp [doubled]
  rw [parts, readQuoted, if_pos rfl, readBody_encode s.toList behind]

end Text

namespace Sql

/-- The text stands between quotes that are told from those inside of it: the text between them is read as
`s`, the reader stops at the last one and not before, and the whole is one token. -/
structure Readable (q : Char) (s t : String) : Prop where
  body   : ∃ cs, t.toList = [q] ++ cs ++ [q] ∧ ∀ u, Text.decode q cs = some u ↔ u = s.toList
  stops  : ∀ r : List Char, r.head? ≠ some q → Text.readQuoted q (t.toList ++ r) = some (s.toList, r)
  single : ∀ quotes : List Char, q ∈ quotes → outerTokens quotes t = [t]

theorem outerTokens_doubled {quotes : List Char} {q : Char} (hq : q ∈ quotes) (s : String) :
    outerTokens quotes (Text.doubled q s) = [Text.doubled q s] := by
  have parts : (Text.doubled q s).toList = [q] ++ Text.encode q s.toList ++ [q] := by
    simp [Text.doubled]
  have run := Lexer.run_quoted hq s.toList (l := .start) rfl
  unfold outerTokens
  rw [parts, run]
  simp [Lexer.close, Lexer.add, Lexer.start, Text.doubled]

theorem readable_doubled (q : Char) (s : String) : Readable q s (Text.doubled q s) where
  body := by
    refine ⟨Text.encode q s.toList, by simp [Text.doubled], fun u => ?_⟩
    rw [Text.decode_encode, Option.some.injEq, eq_comm]
  stops _ behind := Text.readQuoted_doubled q s behind
  single _ hq := outerTokens_doubled hq s

/-- **Identifiers and strings between quotes are read back**, whatever stands in them and whichever character
is the quote. -/
theorem quoting_round_trips (d : Dialect) (s : String) :
    Readable d.quote s (d.quoted s) ∧
      ∃ t, literalText (.primitive .string) (.text s) = .ok t ∧ Readable '\'' s t :=
  ⟨readable_doubled d.quote s, _, rfl, readable_doubled '\'' s⟩

end Sql

end QueryAlgebra
