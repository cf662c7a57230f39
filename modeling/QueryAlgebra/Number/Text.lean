import QueryAlgebra.Number.Shortest

/-!
# The text of a number

A number is written with its shortest decimal: without a point when it is whole and below `10^21`,
with a point down to `10^-6`, otherwise with an exponent that carries its sign.

* `Number.layout`: a decimal laid out by these rules.
* `Number.text`: the text of a number; both zeros are `0`.
-/

namespace QueryAlgebra

/-- The decimal digits of a natural number. -/
def digitsOf (n : Nat) : List Char := Nat.toDigits 10 n

/-- A natural number written with at least `width` digits. -/
def padded (width n : Nat) : List Char :=
  List.replicate (width - (digitsOf n).length) '0' ++ digitsOf n

/-- Digits without the zeros at their end, and how many there were. -/
def splitTrailingZeros (ds : List Char) : List Char × Nat :=
  let kept := (ds.reverse.dropWhile (· == '0')).reverse
  (kept, ds.length - kept.length)

namespace Number

/-- The greatest place of the decimal point at which a number is written in full. -/
def fullPlaces : Int := 21

/-- The least place of the decimal point at which a number is written without an exponent. -/
def pointPlaces : Int := -6

/-- Digits with the decimal point at `place`: the amount is `0.digits · 10 ^ place`. -/
def layout (ds : List Char) (place : Int) : List Char :=
  if ds.length ≤ place ∧ place ≤ fullPlaces then
    ds ++ List.replicate (place.toNat - ds.length) '0'
  else if 0 < place ∧ place ≤ fullPlaces then
    ds.take place.toNat ++ '.' :: ds.drop place.toNat
  else if pointPlaces < place ∧ place ≤ 0 then
    '0' :: '.' :: List.replicate (-place).toNat '0' ++ ds
  else
    let power := place - 1
    let sign := if power < 0 then '-' else '+'
    let mantissa := if ds.length ≤ 1 then ds else ds.take 1 ++ '.' :: ds.drop 1
    mantissa ++ 'e' :: sign :: digitsOf power.natAbs

/-- A positive count of steps as text. -/
def magnitudeText (u : Nat) : List Char :=
  let d := Decimal.shortest u
  let (ds, zeros) := splitTrailingZeros (digitsOf d.digits)
  layout ds (ds.length + zeros + d.exponent)

/-- The text of a number. -/
def text : Number → String
  | .nan        => "NaN"
  | .infinite n => if n then "-Infinity" else "Infinity"
  | .finite n m =>
    if m.steps = 0 then "0"
    else String.ofList (if n then '-' :: magnitudeText m.steps else magnitudeText m.steps)

end Number

end QueryAlgebra
