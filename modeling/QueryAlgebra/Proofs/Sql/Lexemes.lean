import QueryAlgebra.Proofs.Sql.Statement

/-!
# Lexemes of SQL

SQL text is read character by character, but for what stands between quotes: a name between double
quotes, a string between single ones, each with its own quote written twice inside.

* `lexemes`: the lexemes of a text, if every quote is closed.
* `Lexeme.blanked`: lexemes with the contents of strings left out.
* `qualifiers`: the names that stand before a dot.
* `Scans`: a text is read on its own, whatever comes behind it that begins with no quote.
* `Alike`: two texts that are the same once strings are left out, and the names before dots in them.
* `AllAlike`: texts that are alike in pairs.
-/

namespace QueryAlgebra.Sql

/-- A lexeme: a name in double quotes, a string in single ones, or any other character. -/
inductive Lexeme where
  | mark (c : Char)
  | name (n : String)
  | text (t : String)
deriving DecidableEq

/-- A lexeme with the contents of a string left out. -/
def Lexeme.blanked : Lexeme → Lexeme
  | .text _ => .text ""
  | l       => l

/-- Where a reader is: between lexemes, inside of a quote, or behind a quote that may end a lexeme or
stand for itself, with the characters that were read. -/
inductive Place where
  | outside
  | inside (quote : Char) (read : List Char)
  | behind (quote : Char) (read : List Char)

/-- What stands between quotes. -/
def Lexeme.quoted (quote : Char) (read : List Char) : Lexeme :=
  if quote = '"' then .name (String.ofList read) else .text (String.ofList read)

/-- The lexemes that are read from a place on. -/
def lexemesFrom : Place → List Char → Option (List Lexeme)
  | .outside,       []     => some []
  | .inside _ _,    []     => none
  | .behind q read, []     => some [.quoted q read]
  | .outside,       c :: r =>
    if standardQuotes.contains c then lexemesFrom (.inside c []) r
    else (lexemesFrom .outside r).map (.mark c :: ·)
  | .inside q read, c :: r =>
    if c = q then lexemesFrom (.behind q read) r else lexemesFrom (.inside q (read ++ [c])) r
  | .behind q read, c :: r =>
    if c = q then lexemesFrom (.inside q (read ++ [c])) r
    else if standardQuotes.contains c then
      (lexemesFrom (.inside c []) r).map (.quoted q read :: ·)
    else (lexemesFrom .outside r).map fun ls => .quoted q read :: .mark c :: ls

/-- The lexemes of a text, if every quote is closed. -/
def lexemes (text : String) : Option (List Lexeme) := lexemesFrom .outside text.toList

/-- The names that stand before a dot. -/
def qualifiers : List Lexeme → List String
  | .name n :: .mark '.' :: r => n :: qualifiers r
  | _ :: r                    => qualifiers r
  | []                        => []

/-! ### Names before dots -/

theorem qualifiers_mark (c : Char) (ls : List Lexeme) : qualifiers (.mark c :: ls) = qualifiers ls := by
  rw [qualifiers]
  nofun

theorem qualifiers_marks (cs : List Char) (ls : List Lexeme) :
    qualifiers (cs.map .mark ++ ls) = qualifiers ls := by
  induction cs with
  | nil => rfl
  | cons c r ih => rw [List.map_cons, List.cons_append, qualifiers_mark, ih]

/-- What comes behind adds its own names, if it begins with no dot. -/
theorem qualifiers_append {ls ms : List Lexeme} (h : ms.head? ≠ some (.mark '.')) :
    qualifiers (ls ++ ms) = qualifiers ls ++ qualifiers ms := by
  fun_induction qualifiers ls with
  | case1 n r ih =>
    rw [List.cons_append, List.cons_append, qualifiers, ih]
    rfl
  | case2 l r other ih =>
    rw [List.cons_append, ← ih]
    cases l with
    | name n =>
      cases r with
      | nil =>
        cases ms with
        | nil => rfl
        | cons m ms => cases m with
          | mark c =>
            by_cases hc : c = '.'
            · exact absurd (by rw [hc]; rfl) h
            · rw [List.nil_append, qualifiers]
              intro n' r' _ hm
              exact absurd (Lexeme.mark.inj (List.cons.inj hm).1) hc
          | _ => rw [List.nil_append, qualifiers]; nofun
      | cons m r =>
        rw [List.cons_append, qualifiers]
        intro n' r' hn hm
        obtain ⟨rfl, -⟩ := List.cons.inj hm
        exact other n' r hn rfl
    | _ => rw [qualifiers]; nofun
  | case3 => rfl

/-! ### Texts that are read on their own -/

/-- Whether a text has no quotes. -/
def Quoteless (t : String) : Prop := ∀ c ∈ t.toList, standardQuotes.contains c = false

instance (t : String) : Decidable (Quoteless t) :=
  decidable_of_iff ((t.toList.all fun c => !standardQuotes.contains c) = true)
    (by simp [Quoteless])

theorem Quoteless.append {t u : String} (ht : Quoteless t) (hu : Quoteless u) : Quoteless (t ++ u) := by
  unfold Quoteless
  rw [String.toList_append]
  exact List.forall_mem_append.2 ⟨ht, hu⟩

theorem Quoteless.of_chars {t : String} {p : Char → Bool} (h : ∀ c ∈ t.toList, p c = true)
    (quotes : p '"' = false ∧ p '\'' = false) : Quoteless t := by
  intro c hc
  by_contra quote
  rcases List.mem_pair.1 (List.contains_iff_mem.1 (eq_true_of_ne_false quote)) with rfl | rfl
  · exact absurd (h _ hc) (by rw [quotes.2]; exact Bool.false_ne_true)
  · exact absurd (h _ hc) (by rw [quotes.1]; exact Bool.false_ne_true)

/-- A text without quotes that does not begin with a dot: what may stand between others. -/
def Separates (t : String) : Prop := Quoteless t ∧ t ≠ "" ∧ t.toList.head? ≠ some '.'

instance (t : String) : Decidable (Separates t) := inferInstanceAs (Decidable (_ ∧ _ ∧ _))

/-- The text is read as the lexemes, whatever comes behind it that begins with no quote. -/
def Scans (t : String) (ls : List Lexeme) : Prop :=
  ∀ r : List Char, (∀ c ∈ r.head?, standardQuotes.contains c = false) →
    lexemesFrom .outside (t.toList ++ r) = (lexemesFrom .outside r).map (ls ++ ·)

/-- A text without quotes is read character by character, whatever comes behind it. -/
theorem scan_quoteless {t : String} (h : Quoteless t) (r : List Char) :
    lexemesFrom .outside (t.toList ++ r)
      = (lexemesFrom .outside r).map (t.toList.map .mark ++ ·) := by
  unfold Quoteless at h
  generalize t.toList = cs at h
  induction cs with
  | nil => simp
  | cons c q ih =>
    obtain ⟨hc, hq⟩ := List.forall_mem_cons.1 h
    rw [List.cons_append, lexemesFrom, hc, if_neg Bool.false_ne_true, ih hq, Option.map_map]
    rfl

namespace Scans

variable {t u : String} {ls ms : List Lexeme}

theorem lexemes (h : Scans t ls) : lexemes t = some ls := by
  have := h [] nofun
  simpa [Sql.lexemes, lexemesFrom] using this

theorem quoteless (h : Quoteless t) : Scans t (t.toList.map .mark) := fun r _ => scan_quoteless h r

/-- A text without quotes before another one. -/
theorem behind (hp : Quoteless u) (h : Scans t ls) : Scans (u ++ t) (u.toList.map .mark ++ ls) := by
  intro r hr
  rw [String.toList_append, List.append_assoc, scan_quoteless hp, h r hr, Option.map_map]
  congr 1
  funext ks
  exact (List.append_assoc ..).symm

/-- Two texts in turn, the second of which begins with no quote. -/
theorem append (ht : Scans t ls) (hu : Scans u ms)
    (start : ∀ c ∈ u.toList.head?, standardQuotes.contains c = false) (ne : u ≠ "") :
    Scans (t ++ u) (ls ++ ms) := by
  intro r hr
  have nonempty : u.toList ≠ [] := fun h => ne (String.toList_inj.1 h)
  rw [String.toList_append, List.append_assoc,
    ht _ (by rwa [List.head?_append_of_ne_nil _ nonempty]), hu r hr, Option.map_map]
  congr 1
  funext ks
  exact (List.append_assoc ..).symm

/-- What is read inside of quotes. -/
theorem inside (q : Char) (cs read r : List Char) :
    lexemesFrom (.inside q read) (Text.encode q cs ++ q :: r)
      = lexemesFrom (.behind q (read ++ cs)) r := by
  induction cs generalizing read with
  | nil => simp [Text.encode, lexemesFrom]
  | cons c cs ih =>
    by_cases hc : c = q
    · subst hc
      rw [Text.encode_cons, if_pos rfl]
      simp [lexemesFrom, ih]
    · rw [Text.encode_cons, if_neg hc]
      simp [lexemesFrom, hc, ih]

/-- **A text between quotes is one lexeme**, whatever stands in it. -/
theorem doubled {q : Char} (hq : standardQuotes.contains q = true) (s : String) :
    Scans (Text.doubled q s) [.quoted q s.toList] := by
  intro r hr
  have body : (Text.doubled q s).toList ++ r = q :: (Text.encode q s.toList ++ q :: r) := by
    simp [Text.doubled]
  rw [body, lexemesFrom, if_pos hq, inside, List.nil_append]
  cases r with
  | nil => rfl
  | cons c r =>
    have hc : standardQuotes.contains c = false := hr c rfl
    have ne : c ≠ q := fun same => by rw [same, hq] at hc; cases hc
    simp only [lexemesFrom, if_neg ne, hc, Bool.false_eq_true, if_false, Option.map_map]
    rfl

end Scans

/-! ### Texts that are alike -/

/-- Both texts can be read, they are the same once the contents of strings are left out, and the names
stand before dots in them. -/
def Alike (t u : String) (names : List String) : Prop :=
  ∃ ls ms, Scans t ls ∧ Scans u ms ∧ ls.map Lexeme.blanked = ms.map Lexeme.blanked ∧
    qualifiers ls = names ∧ qualifiers ms = names

namespace Alike

variable {t t' u u' p : String} {ns ms : List String}

theorem quoteless (h : Quoteless t) : Alike t t [] := by
  have none : qualifiers (t.toList.map .mark) = [] := by
    simpa [qualifiers] using qualifiers_marks t.toList []
  exact ⟨_, _, .quoteless h, .quoteless h, rfl, none, none⟩

/-- Names are the same lexemes only where they are the same. -/
theorem name (n : String) : Alike (Text.doubled '"' n) (Text.doubled '"' n) [] :=
  ⟨_, _, .doubled rfl n, .doubled rfl n, rfl, rfl, rfl⟩

/-- **Strings are alike whatever their contents.** -/
theorem text (s s' : String) : Alike (Text.doubled '\'' s) (Text.doubled '\'' s') [] :=
  ⟨_, _, .doubled rfl s, .doubled rfl s', rfl, rfl, rfl⟩

/-- A name, a dot and another name. -/
theorem qualified (n c : String) :
    Alike (Text.doubled '"' n ++ "." ++ Text.doubled '"' c)
      (Text.doubled '"' n ++ "." ++ Text.doubled '"' c) [n] := by
  have scans : Scans (Text.doubled '"' n ++ "." ++ Text.doubled '"' c)
      [.name n, .mark '.', .name c] := by
    have column := (Scans.doubled (q := '"') rfl c).behind (u := ".") (by decide)
    have whole := (Scans.doubled (q := '"') rfl n).append column (by simp [standardQuotes]) (by simp)
    rw [String.append_assoc]
    simpa [Lexeme.quoted] using whole
  exact ⟨_, _, scans, scans, rfl, rfl, rfl⟩

theorem behind (hp : Quoteless p) (h : Alike t t' ns) : Alike (p ++ t) (p ++ t') ns := by
  obtain ⟨ls, ks, ht, ht', same, hn, hn'⟩ := h
  exact ⟨_, _, ht.behind hp, ht'.behind hp, by simp [same], by rw [qualifiers_marks, hn],
    by rw [qualifiers_marks, hn']⟩

/-- Two pairs of texts that are alike, with a text between them. -/
theorem between (ht : Alike t t' ns) (hu : Alike u u' ms) (hp : Separates p) :
    Alike (t ++ p ++ u) (t' ++ p ++ u') (ns ++ ms) := by
  obtain ⟨quoteless, ne, dot⟩ := hp
  obtain ⟨ls, ls', hl, hl', same, hn, hn'⟩ := ht
  obtain ⟨ks, ks', hk, hk', same', hm, hm'⟩ := hu
  have nonempty : p.toList ≠ [] := fun h => ne (String.toList_inj.1 h)
  obtain ⟨c, r, hcr⟩ := List.exists_cons_of_ne_nil nonempty
  have start : ∀ v : String, ∀ d ∈ (p ++ v).toList.head?, standardQuotes.contains d = false := by
    intro v d hd
    rw [String.toList_append, hcr] at hd
    cases hd
    exact quoteless c (by simp [hcr])
  have names : ∀ (ls ks : List Lexeme),
      qualifiers (ls ++ (p.toList.map .mark ++ ks)) = qualifiers ls ++ qualifiers ks := by
    intro ls ks
    rw [qualifiers_append, qualifiers_marks]
    simpa [hcr] using dot
  rw [String.append_assoc, String.append_assoc]
  have filled : ∀ v : String, p ++ v ≠ "" := by simp [ne]
  exact ⟨_, _, hl.append (hk.behind quoteless) (start u) (filled u),
    hl'.append (hk'.behind quoteless) (start u') (filled u'), by simp [same, same'],
    by rw [names, hn, hm], by rw [names, hn', hm']⟩

theorem before (ht : Alike t t' ns) (hp : Separates p) : Alike (t ++ p) (t' ++ p) ns := by
  have nothing : Alike "" "" [] := quoteless (by decide)
  simpa using ht.between nothing hp

theorem parens (h : Alike t t' ns) : Alike (parens t) (parens t') ns :=
  (h.behind (by decide)).before (by decide)

theorem spaced (ht : Alike t t' ns) (hu : Alike u u' ms) :
    Alike (t ++ " " ++ u) (t' ++ " " ++ u') (ns ++ ms) := ht.between hu (by decide)

end Alike

/-- Texts that are alike in pairs, and all the names before dots in them. -/
inductive AllAlike : List String → List String → List String → Prop
  | nil : AllAlike [] [] []
  | cons {t u : String} {ts us ns ms : List String} :
    Alike t u ns → AllAlike ts us ms → AllAlike (t :: ts) (u :: us) (ns ++ ms)

namespace AllAlike

variable {t u : String} {ts us ts' us' ns ms : List String}

theorem single (h : Alike t u ns) : AllAlike [t] [u] ns := by
  simpa using AllAlike.cons h .nil

theorem append (h : AllAlike ts us ns) (h' : AllAlike ts' us' ms) :
    AllAlike (ts ++ ts') (us ++ us') (ns ++ ms) := by
  induction h with
  | nil => exact h'
  | cons hx _ ih => simpa using AllAlike.cons hx ih

/-- Texts that are written for pairs. -/
theorem map {α β : Type} {f : α → String} {g : β → String} {names : α → List String}
    {as : List α} {bs : List β} (h : List.Forall₂ (fun a b => Alike (f a) (g b) (names a)) as bs) :
    AllAlike (as.map f) (bs.map g) (as.flatMap names) := by
  induction h with
  | nil => exact .nil
  | cons hx _ ih => exact .cons hx ih

/-- Texts with a separator between them. -/
theorem intercalate {p : String} (hp : Separates p) (h : AllAlike ts us ns) :
    Alike (p.intercalate ts) (p.intercalate us) ns := by
  induction h with
  | nil => exact .quoteless (t := "") (by decide)
  | cons hx rest ih =>
    cases rest with
    | nil => simpa using hx
    | cons =>
      simp only [String.intercalate_cons_cons]
      exact hx.between ih hp

/-- At most one text, with nothing around it. -/
theorem joined (h : AllAlike ts us ns) (one : ts.length ≤ 1) :
    Alike ("".intercalate ts) ("".intercalate us) ns := by
  cases h with
  | nil => exact .quoteless (t := "") (by decide)
  | cons hx rest =>
    cases rest with
    | nil => simpa using hx
    | cons => simp at one

theorem listed (h : AllAlike ts us ns) : Alike (listed ts) (listed us) ns :=
  h.intercalate (by decide)

end AllAlike

end QueryAlgebra.Sql
