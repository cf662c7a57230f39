import QueryAlgebra.Text.Blank

/-!
# Top-level tokens

SQL text is split at blanks that stand outside of quotes, parentheses and brackets.

* `Lexer`, `Lexer.step`: the state of the reader and what one character does to it.
* `outerTokens`: the tokens of a text.
* `Lexer.run_append`: reading a concatenation is reading its parts in turn.
-/

namespace QueryAlgebra.Sql

/-- The state of the reader: the tokens that are complete, the characters of the current one, the
latest first, the depth of nesting, and the quote that is open. -/
structure Lexer where
  tokens  : List (List Char)
  current : List Char
  depth   : Int
  quote   : Option Char

namespace Lexer

def start : Lexer := ⟨[], [], 0, none⟩

/-- Adds a character to the current token. -/
def keep (l : Lexer) (c : Char) : Lexer := { l with current := c :: l.current }

/-- Completes the current token unless it is empty. -/
def close (l : Lexer) : Lexer :=
  if l.current.isEmpty then l
  else { l with tokens := l.tokens ++ [l.current.reverse], current := [] }

/-- Reads one character. -/
def step (quotes : List Char) (l : Lexer) (c : Char) : Lexer :=
  match l.quote with
  | some q => if c = q then { l.keep c with quote := none } else l.keep c
  | none   =>
    if quotes.contains c then { l.keep c with quote := some c }
    else if c = '(' ∨ c = '[' then { l.keep c with depth := l.depth + 1 }
    else if c = ')' ∨ c = ']' then { l.keep c with depth := l.depth - 1 }
    else if l.depth = 0 ∧ Text.isBlank c then l.close
    else l.keep c

/-- Reads characters. -/
def run (quotes : List Char) (l : Lexer) (cs : List Char) : Lexer := cs.foldl (step quotes) l

theorem run_append (quotes : List Char) (l : Lexer) (a b : List Char) :
    l.run quotes (a ++ b) = (l.run quotes a).run quotes b := by
  simp [run, List.foldl_append]

end Lexer

/-- The tokens of a text, split at blanks outside of quotes and brackets. -/
def outerTokens (quotes : List Char) (text : String) : List String :=
  ((Lexer.start.run quotes text.toList).close).tokens.map String.ofList

/-- The quotes that a text is read with when no others are given. -/
def standardQuotes : List Char := ['\'', '"']

end QueryAlgebra.Sql
