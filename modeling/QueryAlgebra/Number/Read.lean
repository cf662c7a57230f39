import QueryAlgebra.Number.Basic
import QueryAlgebra.Text.Blank

/-!
# Numbers read from text

* `Number.ofDecimal`: the number nearest to a whole number of times a power of ten.
* `Number.ofText`: the number a text spells between blanks: nothing is zero, `Infinity` has one
  spelling, whole numbers may have base sixteen, eight or two, and all else is decimal with an
  optional point and exponent. Any other text is not a number.
-/

namespace QueryAlgebra

/-- The value of a digit in a base up to sixteen, letters in either case. -/
def digitInBase? (base : Nat) (c : Char) : Option Nat :=
  let value :=
    if '0' ≤ c ∧ c ≤ '9' then some (c.toNat - 48)
    else if 'a' ≤ c ∧ c ≤ 'f' then some (c.toNat - 87)
    else if 'A' ≤ c ∧ c ≤ 'F' then some (c.toNat - 55)
    else none
  value.filter (· < base)

/-- The amount of a row of digits in a base, none if one of them is no digit. -/
def amount? (base : Nat) (cs : List Char) : Option Nat :=
  cs.foldl (fun acc c => do return (← acc) * base + (← digitInBase? base c)) (some 0)

/-- The decimal digits at the head of a text, and the rest. -/
def spanDigits (cs : List Char) : List Char × List Char := cs.span Char.isDigit

/-- The amount of decimal digits. -/
def decimalAmount (cs : List Char) : Nat := cs.foldl (fun acc c => acc * 10 + (c.toNat - 48)) 0

namespace Number

/-- The number nearest to `digits · 10 ^ exponent`. Amounts far outside the range are settled by
the place of their leading digit. -/
def ofDecimal (negative : Bool) (digits : Nat) (exponent : Int) : Number :=
  let places : Int := (Nat.toDigits 10 digits).length + exponent
  if digits = 0 ∨ places < -400 then ofRatio negative 0 1
  else if 400 < places then .infinite negative
  else ofRatio negative (digits * Nat.pow 10 exponent.toNat * stepsPerOne)
    (Nat.pow 10 (-exponent).toNat)

/-- The sign of a text and what follows it. -/
def splitSign : List Char → Bool × List Char
  | '-' :: r => (true, r)
  | '+' :: r => (false, r)
  | r        => (false, r)

/-- An exponent after its letter: an optional sign and at least one digit, to the end. -/
def exponent? (cs : List Char) : Option Int :=
  let (minus, ds) := splitSign cs
  if ds.isEmpty ∨ ¬ ds.all Char.isDigit then none
  else
    let n : Int := decimalAmount ds
    some (if minus then -n else n)

/-- A decimal without sign, none if the text is not one. -/
def decimal? (negative : Bool) (cs : List Char) : Option Number :=
  let (whole, rest) := spanDigits cs
  let (fraction, tail) :=
    match rest with
    | '.' :: r => spanDigits r
    | r        => ([], r)
  if whole.isEmpty ∧ fraction.isEmpty then none
  else
    let finish (e : Int) :=
      ofDecimal negative (decimalAmount (whole ++ fraction)) (e - fraction.length)
    match tail with
    | []     => some (finish 0)
    | c :: r => if c = 'e' ∨ c = 'E' then (exponent? r).map finish else none

/-- A whole number with a base mark, none if the text has none. -/
def based? : List Char → Option Number
  | '0' :: mark :: ds =>
    let base := match mark with
      | 'x' | 'X' => 16
      | 'o' | 'O' => 8
      | 'b' | 'B' => 2
      | _         => 0
    if base = 0 ∨ ds.isEmpty then none else (amount? base ds).map ofNat
  | _ => none

/-- The number that a text spells. -/
def ofText (s : String) : Number :=
  let cs := Text.trim s.toList
  if cs.isEmpty then ofNat 0
  else match based? cs with
    | some n => n
    | none   =>
      let (minus, body) := splitSign cs
      if body = "Infinity".toList then .infinite minus
      else (decimal? minus body).getD .nan

end Number

end QueryAlgebra
