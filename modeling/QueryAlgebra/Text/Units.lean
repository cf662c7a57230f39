/-!
# Text in 16-bit units

Lengths, order and hashing of text are taken over its 16-bit units: a character below `2^16` is
one unit, any other is a high and a low surrogate.

* `units`: the units of a text, in order.
* `length16`, `before`: length and strict order of texts by their units.
* `hash32`: the 32-bit hash that folds the units with exclusive or and a multiplication.
* `units_append`: the units of a concatenation are the concatenated units.
-/

namespace QueryAlgebra.Text

/-- The 16-bit units of one character. -/
def unitsOfChar (c : Char) : List Nat :=
  if c.toNat < 0x10000 then [c.toNat]
  else [0xD800 + (c.toNat - 0x10000) / 0x400, 0xDC00 + (c.toNat - 0x10000) % 0x400]

/-- The 16-bit units of a text. -/
def units (s : String) : List Nat := s.toList.flatMap unitsOfChar

/-- The length of a text in 16-bit units. -/
def length16 (s : String) : Nat := (units s).length

/-- Whether a text comes strictly before another in the order of 16-bit units. -/
def before (s t : String) : Bool := decide (units s < units t)

/-- The hash of a text: each unit is xored into the state, which is then multiplied by the prime
`16777619` modulo `2^32`. -/
def hash32 (s : String) : UInt32 :=
  (units s).foldl (fun h u => (h ^^^ UInt32.ofNat u) * 0x01000193) 0x811c9dc5

theorem units_append (s t : String) : units (s ++ t) = units s ++ units t := by
  simp [units, String.toList_append]

theorem units_empty : units "" = [] := by simp [units]

end QueryAlgebra.Text
