/-!
# Association lists in insertion order

Entries stand in the order in which their keys were first put. A later value for a key replaces the
earlier one where it stands, and a key that was erased goes to the end when it is put again.

* `Assoc.find?`: the value of the first entry whose key passes a test.
* `Assoc.put`: replaces the value of a key, or appends a new entry.
* `Assoc.erase`: removes the entries of a key.
* `find?_put_self`, `find?_put_of_ne`: looking a key up after it, or another one, was put.
-/

namespace QueryAlgebra.Assoc

variable {κ β : Type}

/-- The value of the first entry whose key passes the test. -/
def find? (test : κ → Bool) : List (κ × β) → Option β
  | []          => none
  | (k, v) :: r => if test k then some v else find? test r

/-- Whether some key passes the test. -/
def has (test : κ → Bool) (es : List (κ × β)) : Bool := es.any fun e => test e.1

/-- Replaces the value of the first entry with the same key, or appends an entry. -/
def put (same : κ → κ → Bool) (k : κ) (v : β) : List (κ × β) → List (κ × β)
  | []           => [(k, v)]
  | (k', v') :: r => if same k k' then (k', v) :: r else (k', v') :: put same k v r

/-- The entries whose keys fail the test. -/
def erase (test : κ → Bool) (es : List (κ × β)) : List (κ × β) := es.filter fun e => !test e.1

/-- Entries put one after the other. -/
def ofList (same : κ → κ → Bool) (es : List (κ × β)) : List (κ × β) :=
  es.foldl (fun acc e => put same e.1 e.2 acc) []

variable [DecidableEq κ]

theorem find?_put_self (k : κ) (v : β) (es : List (κ × β)) :
    find? (k == ·) (put (· == ·) k v es) = some v := by
  induction es with
  | nil => simp [put, find?]
  | cons e r ih =>
    obtain ⟨k', v'⟩ := e
    by_cases h : k = k'
    · simp [put, find?, h]
    · simp [put, find?, h, ih]

theorem find?_put_of_ne {k k₁ : κ} (v : β) (es : List (κ × β)) (h : k₁ ≠ k) :
    find? (k₁ == ·) (put (· == ·) k v es) = find? (k₁ == ·) es := by
  induction es with
  | nil => simp [put, find?, h]
  | cons e r ih =>
    obtain ⟨k', v'⟩ := e
    by_cases h' : k = k'
    · subst h'; simp [put, find?, h]
    · by_cases h₁ : k₁ = k' <;> simp [put, find?, h', h₁, ih]

end QueryAlgebra.Assoc
