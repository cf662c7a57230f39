/-!
# Blank characters

* `isBlank`: the characters that separate words and surround numbers: the ASCII white space, the
  spaces and separators of Unicode and the byte order mark.
* `trim`: a text without blanks at its ends.
-/

namespace QueryAlgebra.Text

/-- White space, including line ends, Unicode spaces and the byte order mark. -/
def isBlank (c : Char) : Bool :=
  let n := c.toNat
  (9 ≤ n && n ≤ 13) || n == 0x20 || n == 0xA0 || n == 0x1680 || (0x2000 ≤ n && n ≤ 0x200A)
    || n == 0x2028 || n == 0x2029 || n == 0x202F || n == 0x205F || n == 0x3000 || n == 0xFEFF

/-- Characters without the blanks at either end. -/
def trim (cs : List Char) : List Char :=
  (((cs.dropWhile isBlank).reverse).dropWhile isBlank).reverse

end QueryAlgebra.Text
