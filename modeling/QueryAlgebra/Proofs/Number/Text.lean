import QueryAlgebra.Proofs.Number.Rounding
import QueryAlgebra.Proofs.Text.Reading
import QueryAlgebra.Value.Json
import Mathlib.Data.List.TakeDrop

/-!
# Texts of numbers are read back

* `Numeral`: how numbers are spelled behind their sign.
* `numeral_layout`, `numeral_magnitudeText`: a decimal that is laid out is a numeral of the same amount.
* `token_text`: the text of a finite number is its token, but for the sign of zero.
* `ofText_text`: the text of a number is read as that number, but for the sign of zero.
* `text_eq_text_iff`: numbers have one text exactly when they differ at most in the sign of zero.
* `isWord_of_mem_text`: the characters that a number's text consists of.
-/

namespace QueryAlgebra

open Decimal

/-! ### Rows of digits -/

/-- A text that does not begin with a digit. -/
def NoDigit (r : List Char) : Prop := ∀ c t, r = c :: t → c.isDigit = false

theorem noDigit_nil : NoDigit [] := by rintro _ _ ⟨⟩

theorem noDigit_cons {c : Char} {r : List Char} (h : c.isDigit = false) : NoDigit (c :: r) := by
  rintro _ _ ⟨⟩
  exact h

theorem spanDigits_append {ds r : List Char} (hds : ∀ c ∈ ds, c.isDigit = true) (hr : NoDigit r) :
    spanDigits (ds ++ r) = (ds, r) := by
  unfold spanDigits
  rw [List.span_eq_takeWhile_dropWhile, List.takeWhile_append_of_pos hds,
    List.dropWhile_append_of_pos hds]
  cases r with
  | nil => simp
  | cons c r => simp [hr c r rfl]

theorem isNumeral_of_isDigit {c : Char} (h : c.isDigit = true) : Value.isNumeral c = true := by
  simp [Value.isNumeral, h]

namespace Number

/-! ### Reading what is laid out -/

/-- An exponent behind its letter, or none. -/
def Tail (tail : List Char) (e : Int) : Prop :=
  (tail = [] ∧ e = 0) ∨ ∃ r, tail = 'e' :: r ∧ exponent? r = some e

theorem tail_nil : Tail [] 0 := Or.inl ⟨rfl, rfl⟩

theorem Tail.noDigit {tail : List Char} {e : Int} (h : Tail tail e) : NoDigit tail := by
  rcases h with ⟨rfl, _⟩ | ⟨r, rfl, _⟩
  · exact noDigit_nil
  · exact noDigit_cons (by decide)

theorem exponent?_digitsOf (n : Nat) (minus : Bool) :
    exponent? ((if minus then '-' else '+') :: digitsOf n)
      = some (if minus then -(n : Int) else n) := by
  have hall : (digitsOf n).all Char.isDigit = true :=
    List.all_eq_true.2 fun c hc => isDigit_of_mem_digitsOf hc
  cases minus <;> simp [exponent?, splitSign, digitsOf_ne_nil, hall]

theorem decimal?_whole (negative : Bool) (ds : List Char) {tail : List Char} {e : Int} (hds : ds ≠ [])
    (hall : ∀ c ∈ ds, c.isDigit = true) (ht : Tail tail e) :
    decimal? negative (ds ++ tail) = some (ofDecimal negative (decimalAmount ds) e) := by
  rcases ht with ⟨rfl, rfl⟩ | ⟨r, rfl, hr⟩
  · have hspan := spanDigits_append hall noDigit_nil
    rw [List.append_nil] at *
    simp [decimal?, hspan, hds]
  · have hspan := spanDigits_append hall (noDigit_cons (c := 'e') (r := r) (by decide))
    simp [decimal?, hspan, hds, hr]

theorem decimal?_point (negative : Bool) (ds fs : List Char) {tail : List Char} {e : Int} (hds : ds ≠ [])
    (hall : ∀ c ∈ ds, c.isDigit = true) (hfs : ∀ c ∈ fs, c.isDigit = true) (ht : Tail tail e) :
    decimal? negative (ds ++ '.' :: (fs ++ tail))
      = some (ofDecimal negative (decimalAmount (ds ++ fs)) (e - fs.length)) := by
  have hspan := spanDigits_append hall (noDigit_cons (c := '.') (r := fs ++ tail) (by decide))
  have hfspan := spanDigits_append hfs ht.noDigit
  rcases ht with ⟨rfl, rfl⟩ | ⟨r, rfl, hr⟩
  · rw [List.append_nil] at *
    simp [decimal?, hspan, hfspan, hds]
  · simp [decimal?, hspan, hfspan, hds, hr]

/-! ### Numerals -/

/-- A row of digits, at least one of them. -/
def DigitRow (ds : List Char) : Prop := ds ≠ [] ∧ ∀ c ∈ ds, c.isDigit = true

/-- The spelling of a number behind its sign: digits, more of them behind a point or none, and an exponent
or none. It stands for the number nearest to its amount. -/
inductive Numeral (negative : Bool) : List Char → Number → Prop
  | whole {ds tail : List Char} {e : Int} (digits : DigitRow ds) (power : Tail tail e) :
    Numeral negative (ds ++ tail) (ofDecimal negative (decimalAmount ds) e)
  | point {ds fs tail : List Char} {e : Int} (digits : DigitRow ds) (fraction : DigitRow fs)
      (power : Tail tail e) :
    Numeral negative (ds ++ '.' :: (fs ++ tail))
      (ofDecimal negative (decimalAmount (ds ++ fs)) (e - fs.length))

/-- **A numeral is read** as the number that it stands for. -/
theorem Numeral.read {negative : Bool} {cs : List Char} {n : Number} (h : Numeral negative cs n) :
    decimal? negative cs = some n := by
  cases h with
  | whole digits power => exact decimal?_whole negative _ digits.1 digits.2 power
  | point digits fraction power =>
    exact decimal?_point negative _ _ digits.1 digits.2 fraction.2 power

theorem Numeral.head {negative : Bool} {cs : List Char} {n : Number} (h : Numeral negative cs n) :
    ∃ c r, cs = c :: r ∧ c.isDigit = true := by
  cases h with
  | whole digits | point digits =>
    obtain ⟨c, r, rfl⟩ := List.exists_cons_of_ne_nil digits.1
    exact ⟨c, _, rfl, digits.2 c (by simp)⟩

theorem isNumeral_of_exponent? {cs : List Char} {e : Int} (h : exponent? cs = some e) :
    ∀ c ∈ cs, Value.isNumeral c = true := by
  have digits : ∀ {ds : List Char}, ¬(ds.isEmpty = true ∨ ¬ds.all Char.isDigit = true) →
      ∀ c ∈ ds, Value.isNumeral c = true := fun ok c hc =>
    isNumeral_of_isDigit (List.all_eq_true.1 (not_not.1 (not_or.1 ok).2) c hc)
  unfold exponent? at h
  fun_cases splitSign cs
  all_goals
    simp only [splitSign] at h
    split at h
    · cases h
  · exact List.forall_mem_cons.2 ⟨rfl, digits ‹_›⟩
  · exact List.forall_mem_cons.2 ⟨rfl, digits ‹_›⟩
  · exact digits ‹_›

theorem Tail.isNumeral_of_mem {tail : List Char} {e : Int} (h : Tail tail e) :
    ∀ c ∈ tail, Value.isNumeral c = true := by
  rcases h with ⟨rfl, -⟩ | ⟨r, rfl, hr⟩
  · nofun
  · exact List.forall_mem_cons.2 ⟨rfl, isNumeral_of_exponent? hr⟩

/-- A numeral consists of digits, points, signs and exponent marks. -/
theorem Numeral.isNumeral_of_mem {negative : Bool} {cs : List Char} {n : Number}
    (h : Numeral negative cs n) : ∀ c ∈ cs, Value.isNumeral c = true := by
  have row : ∀ {ds : List Char}, DigitRow ds → ∀ c ∈ ds, Value.isNumeral c = true :=
    fun h c hc => isNumeral_of_isDigit (h.2 c hc)
  cases h with
  | whole digits power => exact List.forall_mem_append.2 ⟨row digits, power.isNumeral_of_mem⟩
  | point digits fraction power =>
    exact List.forall_mem_append.2 ⟨row digits, List.forall_mem_cons.2
      ⟨rfl, List.forall_mem_append.2 ⟨row fraction, power.isNumeral_of_mem⟩⟩⟩

theorem isDigit_of_mem_zeros {n : Nat} : ∀ c ∈ List.replicate n '0', c.isDigit = true := fun c hc => by
  rw [(List.mem_replicate.1 hc).2]
  decide

theorem tail_power (power : Int) :
    Tail ('e' :: (if power < 0 then '-' else '+') :: digitsOf power.natAbs) power := by
  refine Or.inr ⟨_, rfl, ?_⟩
  have := exponent?_digitsOf power.natAbs (decide (power < 0))
  simp only [decide_eq_true_eq] at this
  rw [this]
  congr 1
  split <;> omega

/-- **A decimal that is laid out is a numeral** of the same amount. -/
theorem numeral_layout (negative : Bool) {ds : List Char} (place : Int) (row : DigitRow ds) :
    Numeral negative (layout ds place)
      (ofDecimal negative (decimalAmount ds) (place - ds.length)) := by
  obtain ⟨hds, hall⟩ := row
  have hlen : 0 < ds.length := List.length_pos_iff.2 hds
  unfold layout
  split
  · -- All digits, and zeros up to the point.
    rename_i h
    have hwhole : Numeral negative (ds ++ List.replicate (place.toNat - ds.length) '0' ++ []) _ :=
      .whole ⟨by simp [hds], fun c hc =>
        (List.mem_append.1 hc).elim (hall c) (isDigit_of_mem_zeros c)⟩ tail_nil
    rw [List.append_nil, decimalAmount_append, decimalAmount_replicate_zero, Nat.add_zero,
      List.length_replicate, ofDecimal_shift] at hwhole
    have hplace : (0 : Int) + (place.toNat - ds.length : Nat) = place - ds.length := by omega
    rwa [hplace] at hwhole
  split
  · -- The point inside the digits.
    rename_i h
    have hpoint : Numeral negative (ds.take place.toNat ++ '.' :: (ds.drop place.toNat ++ [])) _ :=
      .point ⟨by simp [hds]; omega, fun c hc => hall c (List.mem_of_mem_take hc)⟩
        ⟨by simp; omega, fun c hc => hall c (List.mem_of_mem_drop hc)⟩ tail_nil
    rw [List.append_nil, List.take_append_drop, List.length_drop] at hpoint
    have hplace : (0 : Int) - (ds.length - place.toNat : Nat) = place - ds.length := by omega
    rwa [hplace] at hpoint
  split
  · -- Zeros between the point and the digits.
    rename_i h
    have hpoint : Numeral negative
        (['0'] ++ '.' :: (List.replicate (-place).toNat '0' ++ ds ++ [])) _ :=
      .point ⟨by simp, by simp⟩ ⟨by simp [hds], fun c hc =>
        (List.mem_append.1 hc).elim (isDigit_of_mem_zeros c) (hall c)⟩ tail_nil
    have hamount : decimalAmount (['0'] ++ (List.replicate (-place).toNat '0' ++ ds))
        = decimalAmount ds := by
      have hone : decimalAmount ['0'] = 0 := by decide
      simp only [decimalAmount_append, hone, decimalAmount_replicate_zero, Nat.zero_mul,
        Nat.zero_add]
    rw [List.append_nil, hamount, List.length_append, List.length_replicate] at hpoint
    have hplace : (0 : Int) - ((-place).toNat + ds.length : Nat) = place - ds.length := by omega
    rwa [hplace] at hpoint
  · -- An exponent.
    dsimp only
    by_cases short : ds.length ≤ 1
    · have hone : (ds.length : Int) = 1 := by omega
      rw [if_pos short, hone]
      exact .whole ⟨hds, hall⟩ (tail_power (place - 1))
    · have hpoint : Numeral negative (ds.take 1 ++ '.' :: (ds.drop 1 ++ _)) _ :=
        .point ⟨by simp [hds], fun c hc => hall c (List.mem_of_mem_take hc)⟩
          ⟨by rw [Ne, List.drop_eq_nil_iff]; exact short,
            fun c hc => hall c (List.mem_of_mem_drop hc)⟩ (tail_power (place - 1))
      rw [List.take_append_drop, List.length_drop] at hpoint
      have hplace : place - 1 - (ds.length - 1 : Nat) = place - ds.length := by omega
      rw [hplace] at hpoint
      rwa [if_neg short, List.append_assoc, List.cons_append]

/-! ### Counts of steps -/

/-- The digits that the text of a positive count consists of. -/
theorem isDigit_of_mem_kept {n : Nat} :
    ∀ c ∈ (splitTrailingZeros (digitsOf n)).1, c.isDigit = true := fun c hc => by
  refine isDigit_of_mem_digitsOf (n := n) ?_
  rw [← splitTrailingZeros_append (digitsOf n)]
  exact List.mem_append_left _ hc

/-- A decimal in the interval of a positive count has digits. -/
theorem digits_pos_of_readsBack {u : Nat} (hu : 0 < u) {d : Decimal} (h : readsBack u d = true) :
    0 < d.digits := by
  have hscale : 0 < d.scale := Nat.pow_pos (by decide)
  have hpos := Nat.mul_pos (show 0 < lower u by have := le_lower hu; omega) hscale
  rcases Nat.eq_zero_or_pos d.digits with h0 | h0
  · unfold readsBack at h
    simp only [quarters, h0, Nat.zero_mul] at h
    split at h <;> simp only [Bool.and_eq_true, decide_eq_true_eq] at h <;> omega
  · exact h0

/-- **The text of a positive count is a numeral** for that count. -/
theorem numeral_magnitudeText (negative : Bool) (m : Magnitude) (hm : 0 < m.steps) :
    Numeral negative (magnitudeText m.steps) (.finite negative m) := by
  have hback := shortest_readsBack hm
  have hpos := digits_pos_of_readsBack hm hback
  unfold magnitudeText
  dsimp only
  generalize shortest m.steps = d at *
  have hne := splitTrailingZeros_ne_nil hpos
  have hall : ∀ c ∈ (splitTrailingZeros (digitsOf d.digits)).1, c.isDigit = true :=
    isDigit_of_mem_kept
  have hamount := congrArg decimalAmount (splitTrailingZeros_append (digitsOf d.digits))
  generalize splitTrailingZeros (digitsOf d.digits) = split at *
  obtain ⟨ds, zeros⟩ := split
  dsimp only at *
  rw [decimalAmount_append, decimalAmount_replicate_zero, Nat.add_zero, List.length_replicate,
    decimalAmount_digitsOf] at hamount
  have hplace : (ds.length + zeros + d.exponent : Int) - ds.length = d.exponent + zeros := by omega
  have hlaid := numeral_layout negative (ds.length + zeros + d.exponent) ⟨hne, hall⟩
  rwa [hplace, ← ofDecimal_shift, hamount, ofDecimal_of_readsBack negative m hm hback] at hlaid

/-! ### Tokens -/

/-- The token of a number: a numeral, behind a minus sign if the number is negative. -/
inductive Token : List Char → Number → Prop
  | plain {cs : List Char} {n : Number} (numeral : Numeral false cs n) : Token cs n
  | minus {cs : List Char} {n : Number} (numeral : Numeral true cs n) : Token ('-' :: cs) n

theorem Token.isNumeral_of_mem {cs : List Char} {n : Number} (h : Token cs n) :
    ∀ c ∈ cs, Value.isNumeral c = true := by
  cases h with
  | plain numeral => exact numeral.isNumeral_of_mem
  | minus numeral => exact List.forall_mem_cons.2 ⟨rfl, numeral.isNumeral_of_mem⟩

theorem Token.ne_nil {cs : List Char} {n : Number} (h : Token cs n) : cs ≠ [] := by
  cases h with
  | plain numeral =>
    obtain ⟨c, r, rfl, -⟩ := numeral.head
    exact List.cons_ne_nil c r
  | minus => exact List.cons_ne_nil _ _

theorem stepsLimit_pos : 0 < stepsLimit := by
  unfold stepsLimit
  generalize 1024 = n
  exact Nat.mul_pos (Nat.two_pow_pos n) stepsPerOne_pos

/-- **The text of a finite number is its token**, but for the sign of zero. -/
theorem token_text {n : Number} (finite : n.isFinite = true) :
    Token n.text.toList n.unsignedZero := by
  obtain ⟨s, m, rfl⟩ : ∃ s m, n = .finite s m := by
    cases n <;> first | exact ⟨_, _, rfl⟩ | cases finite
  rcases Nat.eq_zero_or_pos m.steps with h0 | hpos
  · have hzero : unsignedZero (.finite s m) = .finite false m := by
      simp [unsignedZero, isZero, abs, h0]
    have htext : (text (.finite s m)).toList = ['0'] := by simp [text, h0]
    have hm : m = ⟨0, ⟨0, 0, by decide, rfl⟩, stepsLimit_pos⟩ := by
      obtain ⟨steps, sparse, small⟩ := m
      simp only at h0
      subst h0
      rfl
    have digit : Numeral false (['0'] ++ []) (ofDecimal false (decimalAmount ['0']) 0) :=
      .whole ⟨by simp, by simp⟩ tail_nil
    have amount : ofDecimal false (decimalAmount ['0']) 0
        = .finite false ⟨0, ⟨0, 0, by decide, rfl⟩, stepsLimit_pos⟩ := by decide +kernel
    rw [amount] at digit
    rw [hzero, htext, hm]
    exact .plain digit
  · have hsame : unsignedZero (.finite s m) = .finite s m := by
      simp [unsignedZero, isZero]
      omega
    have hnumeral := numeral_magnitudeText s m hpos
    rw [hsame, text, if_neg (Nat.pos_iff_ne_zero.1 hpos), String.toList_ofList]
    cases s with
    | false =>
      rw [if_neg Bool.false_ne_true]
      exact .plain hnumeral
    | true =>
      rw [if_pos rfl]
      exact .minus hnumeral

/-- No other text of a number is a token. -/
theorem isFinite_of_token {n m : Number} (h : Token n.text.toList m) : n.isFinite = true := by
  have numerals := h.isNumeral_of_mem
  cases n with
  | finite => rfl
  | nan => exact absurd (numerals 'N' (by simp [text])) (by decide)
  | infinite s => exact absurd (numerals 'I' (by cases s <;> simp [text])) (by decide)

/-! ### Whole texts -/

theorem trim_eq_self {cs : List Char} (h : ∀ c ∈ cs, Text.isBlank c = false) :
    Text.trim cs = cs := by
  have hdrop : ∀ ds : List Char, (∀ c ∈ ds, Text.isBlank c = false) →
      ds.dropWhile Text.isBlank = ds := by
    rintro (_ | ⟨c, ds⟩) hds
    · rfl
    · simp [hds c (by simp)]
  unfold Text.trim
  rw [hdrop cs h, hdrop cs.reverse (by simpa using h), List.reverse_reverse]

theorem toNat_bounds_of_isDigit {c : Char} (h : c.isDigit = true) :
    48 ≤ c.toNat ∧ c.toNat ≤ 57 := by
  simp only [Char.isDigit, Bool.and_eq_true, decide_eq_true_eq] at h
  exact ⟨UInt32.le_iff_toNat_le.1 h.1, UInt32.le_iff_toNat_le.1 h.2⟩

theorem isBlank_of_isNumeral {c : Char} (h : Value.isNumeral c = true) :
    Text.isBlank c = false := by
  simp only [Value.isNumeral, Bool.or_eq_true, beq_iff_eq] at h
  rcases h with ((((h | rfl) | rfl) | rfl) | rfl) | rfl
  · have := toNat_bounds_of_isDigit h
    simp only [Text.isBlank, Bool.or_eq_false_iff, Bool.and_eq_false_iff, decide_eq_false_iff_not,
      beq_eq_false_iff_ne]
    omega
  all_goals rfl

/-- A text of numerals has no base mark. -/
theorem based?_eq_none {cs : List Char} (h : ∀ c ∈ cs, Value.isNumeral c = true) :
    based? cs = none := by
  unfold based?
  split
  · rename_i mark ds
    have hmark := h mark (by simp)
    dsimp only
    split
    all_goals first | exact absurd hmark (by decide) | simp
  · rfl

theorem splitSign_digit {c : Char} {r : List Char} (h : c.isDigit = true) :
    splitSign (c :: r) = (false, c :: r) := by
  unfold splitSign
  split
  · rename_i heq
    obtain ⟨rfl, _⟩ := List.cons.inj heq
    exact absurd h (by decide)
  · rename_i heq
    obtain ⟨rfl, _⟩ := List.cons.inj heq
    exact absurd h (by decide)
  · rfl

/-- **A token is read** as the number that it stands for. -/
theorem Token.read {cs : List Char} {n : Number} (h : Token cs n) : ofText (String.ofList cs) = n := by
  have hall := h.isNumeral_of_mem
  have hinf : ∀ {ds : List Char}, (∃ c r, ds = c :: r ∧ c.isDigit = true) →
      ds ≠ "Infinity".toList := by
    rintro _ ⟨c, r, rfl, hc⟩ heq
    have : "Infinity".toList = 'I' :: "nfinity".toList := by simp
    rw [this] at heq
    rw [(List.cons.inj heq).1] at hc
    exact absurd hc (by decide)
  unfold ofText
  rw [String.toList_ofList, trim_eq_self fun x hx => isBlank_of_isNumeral (hall x hx)]
  cases h with
  | plain numeral =>
    have hread := numeral.read
    obtain ⟨c, r, rfl, hc⟩ := numeral.head
    simp only [List.isEmpty_cons, Bool.false_eq_true, if_false, based?_eq_none hall,
      splitSign_digit hc, if_neg (hinf numeral.head), hread, Option.getD_some]
  | minus numeral =>
    simp only [List.isEmpty_cons, Bool.false_eq_true, if_false, based?_eq_none hall,
      splitSign, if_neg (hinf numeral.head), numeral.read, Option.getD_some]

/-- **The text of a number is read as that number**, but for the sign of zero. -/
theorem ofText_text (n : Number) : ofText n.text = n.unsignedZero := by
  cases n with
  | nan => decide +kernel
  | infinite s => cases s <;> decide +kernel
  | finite s m =>
    have hread := (token_text (n := .finite s m) rfl).read
    rwa [String.ofList_toList] at hread

theorem text_unsignedZero (n : Number) : n.unsignedZero.text = n.text := by
  unfold unsignedZero
  split
  · rename_i hzero
    cases n with
    | nan => rfl
    | infinite s => simp [isZero] at hzero
    | finite s m =>
      have h0 : m.steps = 0 := by simpa [isZero] using hzero
      simp [abs, text, h0]
  · rfl

/-- **Numbers have one text exactly when they differ at most in the sign of zero.** -/
theorem text_eq_text_iff {a b : Number} : a.text = b.text ↔ a.unsignedZero = b.unsignedZero := by
  constructor
  · intro h
    rw [← ofText_text, h, ofText_text]
  · intro h
    rw [← text_unsignedZero a, h, text_unsignedZero b]

/-- A character that may stand in the text of a number. -/
def isWord (c : Char) : Bool :=
  Value.isNumeral c || ['N', 'a', 'I', 'n', 'f', 'i', 't', 'y'].contains c

theorem isWord_of_mem_text (n : Number) : ∀ c ∈ n.text.toList, isWord c = true := by
  cases n with
  | nan => simp [text, isWord]
  | infinite s => cases s <;> simp [text, isWord, Value.isNumeral]
  | finite s m =>
    intro c hc
    simp [isWord, (token_text (n := .finite s m) rfl).isNumeral_of_mem c hc]

theorem text_ne_empty (n : Number) : n.text ≠ "" := by
  cases n with
  | nan => simp [text]
  | infinite s => cases s <;> simp [text]
  | finite s m =>
    rintro empty
    exact (token_text (n := .finite s m) rfl).ne_nil (by simp [empty])

/-- **The text of a number tells it**, up to the sign of zero, before any character that cannot
stand in it. -/
theorem text_append_inj {a b : Number} {c c' : Char} {r r' : List Char} (hc : isWord c = false)
    (hc' : isWord c' = false) (h : a.text.toList ++ c :: r = b.text.toList ++ c' :: r') :
    a.unsignedZero = b.unsignedZero ∧ c :: r = c' :: r' := by
  obtain ⟨htext, hr⟩ :=
    Text.takeWhile_append_inj isWord (isWord_of_mem_text a) (isWord_of_mem_text b) hc hc' h
  exact ⟨text_eq_text_iff.1 (String.toList_inj.1 htext), hr⟩

end Number

end QueryAlgebra
