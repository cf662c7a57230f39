import Mathlib.Data.List.Basic

/-!
# Reading written texts

A text that was put together from written items can be taken apart in one way only when every item
is told from every other one by what is written, whatever stands behind it.

* `Stops`, `Closes`: what may stand behind an item, and behind a list of items.
* `ReadsAt`: an item is told from others by its text.
* `takeWhile_append_inj`: a word and what follows it are told apart by the first character that
  cannot belong to a word.
* `listed_inj`: a list of items is read item by item.
-/

namespace QueryAlgebra.Text

/-- The marks that close a list. -/
def closers : List Char := [')', ']', '\x7d', '|']

/-- The marks that may stand behind an item. -/
def stoppers : List Char := [',', ' ', '='] ++ closers

/-- A text that begins with one of the marks that close a list. -/
def Closes (r : List Char) : Prop := ∃ c t, r = c :: t ∧ c ∈ closers

/-- A text that begins with one of the marks that may stand behind an item. -/
def Stops (r : List Char) : Prop := ∃ c t, r = c :: t ∧ c ∈ stoppers

theorem stops_cons {c : Char} (r : List Char) (h : c ∈ stoppers) : Stops (c :: r) := ⟨c, r, rfl, h⟩

theorem closes_cons {c : Char} (r : List Char) (h : c ∈ closers) : Closes (c :: r) := ⟨c, r, rfl, h⟩

theorem Closes.stops {r : List Char} (h : Closes r) : Stops r := by
  obtain ⟨c, t, rfl, hc⟩ := h
  exact ⟨c, t, rfl, List.mem_append_right _ hc⟩

theorem not_closes_cons {c : Char} {r : List Char} (h : c ∉ closers) : ¬Closes (c :: r) := by
  rintro ⟨_, _, he, hc⟩
  cases he
  exact h hc

/-! ### Words -/

/-- A word ends before the first character that cannot belong to a word. -/
theorem takeWhile_append_inj {α : Type} (p : α → Bool) {w w' r r' : List α} {c c' : α}
    (hw : ∀ x ∈ w, p x = true) (hw' : ∀ x ∈ w', p x = true) (hc : p c = false) (hc' : p c' = false)
    (h : w ++ c :: r = w' ++ c' :: r') : w = w' ∧ c :: r = c' :: r' := by
  induction w generalizing w' with
  | nil =>
    cases w' with
    | nil => exact ⟨rfl, by simpa using h⟩
    | cons x w' =>
      obtain ⟨rfl, _⟩ := List.cons.inj h
      simp [hw' c (by simp)] at hc
  | cons x w ih =>
    cases w' with
    | nil =>
      obtain ⟨rfl, _⟩ := List.cons.inj h
      simp [hw x (by simp)] at hc'
    | cons y w' =>
      obtain ⟨rfl, hrest⟩ := List.cons.inj h
      obtain ⟨rfl, hr⟩ :=
        ih (fun z hz => hw z (by simp [hz])) (fun z hz => hw' z (by simp [hz])) hrest
      exact ⟨rfl, hr⟩

/-- A word before an opening parenthesis is told from any other one. -/
theorem tag_inj {s t : String} {r r' : List Char} (hs : ∀ x ∈ s.toList, x ≠ '(')
    (ht : ∀ x ∈ t.toList, x ≠ '(') (h : s.toList ++ '(' :: r = t.toList ++ '(' :: r') :
    s = t ∧ r = r' := by
  obtain ⟨hst, hr⟩ := takeWhile_append_inj (· != '(') (fun x hx => by simpa using hs x hx)
    (fun x hx => by simpa using ht x hx) (by simp) (by simp) h
  exact ⟨String.toList_inj.1 hst, (List.cons.inj hr).2⟩

/-! ### Lists -/

section

variable {α β : Type}

/-- The item is told from every other one that is `ok`, up to `form`, by what is written, where a
mark stands behind both. -/
def ReadsAt (write : α → String) (form : α → β) (ok : α → Prop) (a : α) : Prop :=
  ∀ b, ok b → ∀ r r', Stops r → Stops r' →
    (write a).toList ++ r = (write b).toList ++ r' → form a = form b ∧ r = r'

/-- The items of a list behind the first one, each behind a separator. -/
def tailText (write : α → String) (sep : String) (as : List α) : List Char :=
  as.flatMap fun a => sep.toList ++ (write a).toList

theorem intercalate_cons (write : α → String) (sep : String) (a : α) (as : List α) :
    (sep.intercalate ((a :: as).map write)).toList
      = (write a).toList ++ tailText write sep as := by
  induction as generalizing a with
  | nil => simp [tailText]
  | cons b as ih =>
    have := ih b
    simp only [List.map_cons] at this
    simp [tailText, String.intercalate_cons_cons, this, List.append_assoc]

variable {write : α → String} {form : α → β} {ok : α → Prop} {sep : String} {s : List Char}

theorem stops_tailText (hsep : sep.toList = ',' :: s) (as : List α) {r : List Char}
    (hr : Closes r) : Stops (tailText write sep as ++ r) := by
  cases as with
  | nil => simpa [tailText] using hr.stops
  | cons a as =>
    simp only [tailText, List.flatMap_cons, hsep, List.cons_append]
    exact stops_cons _ (by decide)

theorem not_closes_tailText (hsep : sep.toList = ',' :: s) (a : α) (as : List α) (r : List Char) :
    ¬Closes (tailText write sep (a :: as) ++ r) := by
  simp only [tailText, List.flatMap_cons, hsep, List.cons_append]
  exact not_closes_cons (by decide)

theorem tailText_inj (hsep : sep.toList = ',' :: s) {as bs : List α}
    (ha : ∀ a ∈ as, ReadsAt write form ok a) (hb : ∀ b ∈ bs, ok b) {r r' : List Char}
    (hr : Closes r) (hr' : Closes r')
    (h : tailText write sep as ++ r = tailText write sep bs ++ r') :
    as.map form = bs.map form ∧ r = r' := by
  induction as generalizing bs with
  | nil =>
    cases bs with
    | nil => exact ⟨rfl, by simpa [tailText] using h⟩
    | cons b bs =>
      have hr : Closes (tailText write sep (b :: bs) ++ r') := by
        rw [← h]; simpa [tailText] using hr
      exact absurd hr (not_closes_tailText hsep b bs r')
  | cons a as ih =>
    cases bs with
    | nil =>
      have hr' : Closes (tailText write sep (a :: as) ++ r) := by
        rw [h]; simpa [tailText] using hr'
      exact absurd hr' (not_closes_tailText hsep a as r)
    | cons b bs =>
      have hab : (write a).toList ++ (tailText write sep as ++ r)
          = (write b).toList ++ (tailText write sep bs ++ r') := by
        simpa [tailText, List.append_assoc] using h
      obtain ⟨hform, hrest⟩ := ha a (by simp) b (hb b (by simp)) _ _
        (stops_tailText hsep as hr) (stops_tailText hsep bs hr') hab
      obtain ⟨hforms, hr⟩ :=
        ih (fun x hx => ha x (by simp [hx])) (fun x hx => hb x (by simp [hx])) hrest
      exact ⟨by simp [hform, hforms], hr⟩

/-- **A list of items is read item by item**, up to the mark that closes it, if no item begins with
such a mark. -/
theorem listed_inj (hsep : sep.toList = ',' :: s)
    (start : ∀ a, ok a → ∀ r, ¬Closes ((write a).toList ++ r)) {as bs : List α}
    (hok : ∀ a ∈ as, ok a) (ha : ∀ a ∈ as, ReadsAt write form ok a) (hb : ∀ b ∈ bs, ok b)
    {r r' : List Char} (hr : Closes r) (hr' : Closes r')
    (h : (sep.intercalate (as.map write)).toList ++ r
      = (sep.intercalate (bs.map write)).toList ++ r') :
    as.map form = bs.map form ∧ r = r' := by
  cases as with
  | nil =>
    cases bs with
    | nil => exact ⟨rfl, by simpa using h⟩
    | cons b bs =>
      rw [intercalate_cons, List.append_assoc] at h
      simp only [List.map_nil, String.intercalate_nil, String.toList_empty, List.nil_append] at h
      exact absurd (h ▸ hr) (start b (hb b (by simp)) _)
  | cons a as =>
    cases bs with
    | nil =>
      rw [intercalate_cons, List.append_assoc] at h
      simp only [List.map_nil, String.intercalate_nil, String.toList_empty, List.nil_append] at h
      exact absurd (h ▸ hr') (start a (hok a (by simp)) _)
    | cons b bs =>
      rw [intercalate_cons, intercalate_cons, List.append_assoc, List.append_assoc] at h
      obtain ⟨hform, hrest⟩ := ha a (by simp) b (hb b (by simp)) _ _
        (stops_tailText hsep as hr) (stops_tailText hsep bs hr') h
      obtain ⟨hforms, hr⟩ := tailText_inj hsep (fun x hx => ha x (by simp [hx]))
        (fun x hx => hb x (by simp [hx])) hr hr' hrest
      exact ⟨by simp [hform, hforms], hr⟩

end

end QueryAlgebra.Text
