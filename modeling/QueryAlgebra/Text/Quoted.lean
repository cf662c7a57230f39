/-!
# Quoted text

Two ways of writing a text between quote characters.

* `json`: between double quotes, with a backslash before quotes, backslashes and control characters.
* `doubled`: between a chosen quote character, which is written twice inside.
* `encode`, `decode`: the body of a doubled text and its reader.
* `decode_encode`: reading the body of a doubled text gives the text back.
* `doubled_of_not_mem`: a text without quotes stays as it is.
-/

namespace QueryAlgebra.Text

/-- A digit of a hexadecimal number below sixteen, in lower case. -/
def hexDigit (n : Nat) : Char := if n < 10 then Char.ofNat (48 + n) else Char.ofNat (87 + n)

/-- One character inside a JSON string. -/
def jsonChar (c : Char) : List Char :=
  if c = '"' then ['\\', '"']
  else if c = '\\' then ['\\', '\\']
  else if c = '\n' then ['\\', 'n']
  else if c = '\r' then ['\\', 'r']
  else if c = '\t' then ['\\', 't']
  else if c = '\x08' then ['\\', 'b']
  else if c = '\x0c' then ['\\', 'f']
  else if c.toNat < 0x20 then
    ['\\', 'u', '0', '0', hexDigit (c.toNat / 16), hexDigit (c.toNat % 16)]
  else [c]

/-- The JSON string of a text. -/
def json (s : String) : String :=
  String.ofList ('"' :: s.toList.flatMap jsonChar ++ ['"'])

/-- A text body in which every quote is written twice. -/
def encode (q : Char) (cs : List Char) : List Char :=
  cs.flatMap fun c => if c = q then [q, q] else [c]

/-- Reads a body back; a quote that stands alone is refused. -/
def decode (q : Char) : List Char → Option (List Char)
  | [] => some []
  | [c] => if c = q then none else some [c]
  | c :: d :: r =>
    if c = q then if d = q then (decode q r).map (q :: ·) else none
    else (decode q (d :: r)).map (c :: ·)

/-- A text between quotes, with the quotes inside it doubled. -/
def doubled (q : Char) (s : String) : String :=
  String.ofList (q :: encode q s.toList ++ [q])

theorem encode_cons (q c : Char) (cs : List Char) :
    encode q (c :: cs) = (if c = q then [q, q] else [c]) ++ encode q cs := by
  simp [encode]

theorem encode_of_not_mem {q : Char} : ∀ {cs : List Char}, q ∉ cs → encode q cs = cs
  | [], _ => rfl
  | c :: cs, h => by
    simp only [List.mem_cons, not_or] at h
    rw [encode_cons, if_neg (Ne.symm h.1), encode_of_not_mem h.2]
    rfl

/-- Where there is nothing to double, the text stands between quotes as it is. -/
theorem doubled_of_not_mem {q : Char} {s : String} (h : q ∉ s.toList) :
    doubled q s = String.singleton q ++ s ++ String.singleton q := by
  rw [doubled, encode_of_not_mem h]
  exact String.toList_inj.1 (by simp)

theorem decode_encode (q : Char) (cs : List Char) : decode q (encode q cs) = some cs := by
  induction cs with
  | nil => rfl
  | cons c cs ih =>
    by_cases h : c = q
    · subst h; simp [encode_cons, decode, ih]
    · rw [encode_cons, if_neg h]
      cases hr : encode q cs with
      | nil =>
        rw [hr] at ih
        have : cs = [] := by simpa [decode] using ih.symm
        simp [decode, h, this]
      | cons d r =>
        rw [hr] at ih
        simp [decode, h, ih]

end QueryAlgebra.Text
