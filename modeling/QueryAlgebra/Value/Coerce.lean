import QueryAlgebra.Value.Text
import QueryAlgebra.Number.Read
import QueryAlgebra.Instant.Read

/-!
# Values turned into scalars

* `Value.truth`: the truth value of a value.
* `Value.amount`: its number.
* `Value.instant?`: its instant, if it has one.
* `Value.natural?`: the natural number that it is, if it is one.

The text of a value is `Value.plain`.
-/

namespace QueryAlgebra

namespace Value

/-- Whether a value counts as true: not the empty or absent value, zero, not-a-number or the empty
text. -/
def truth : Value → Bool
  | .absent   => false
  | .null     => false
  | .bool b   => b
  | .number n => !(n.isZero || n == .nan)
  | .text s   => s != ""
  | _         => true

/-- The number of a value: text is read, the empty value is zero, dates count their milliseconds. -/
def amount : Value → Number
  | .absent        => .nan
  | .null          => .ofNat 0
  | .bool b        => .ofNat b.toNat
  | .number n      => n
  | .text s        => .ofText s
  | .date (some t) => .ofInt t.millis
  | .date none     => .nan
  | v              => .ofText v.plain

/-- The instant of a value: numbers count milliseconds, text is read. -/
def instant? : Value → Option Instant
  | .absent   => none
  | .date t   => t
  | .null     => Instant.ofMillis? 0
  | .bool b   => Instant.ofMillis? b.toNat
  | .number n => Instant.ofNumber? n
  | .text s   => Instant.ofText? s
  | v         => Instant.ofText? v.plain

/-- The natural number that a value is. -/
def natural? : Value → Option Nat
  | .number n => if n.isWhole && !(n.lt (.ofNat 0)) then n.toInt?.map Int.toNat else none
  | _         => none

end Value

end QueryAlgebra
