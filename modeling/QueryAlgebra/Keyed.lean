import QueryAlgebra.Assoc

/-!
# Maps and sets of keyed nodes

A node is anything with a key, a text that encodes its structure. Nodes with one key are
interchangeable: maps and sets of nodes tell them apart by key alone, and report the node that was
put first.

* `Keyed`: types whose values have a key.
* `KeyedMap`: a map from nodes, in the order in which their keys were first put.
* `KeyedSet`: a set of nodes, in the order in which their keys were first added.
* `KeyedMap.get?_set_self`, `KeyedSet.has_add`: what a map and a set answer after a change.
-/

namespace QueryAlgebra

/-- A type whose values have a key that encodes their structure. -/
class Keyed (α : Type) where
  key : α → String

/-- A map from nodes, told apart by their keys. -/
structure KeyedMap (α β : Type) where
  entries : List (String × α × β)

namespace KeyedMap

variable {α β : Type} [Keyed α]

def empty : KeyedMap α β := ⟨[]⟩

def size (m : KeyedMap α β) : Nat := m.entries.length

/-- The node and the value held under a key. -/
def entry? (m : KeyedMap α β) (key : String) : Option (α × β) := Assoc.find? (key == ·) m.entries

def get? (m : KeyedMap α β) (a : α) : Option β := (m.entry? (Keyed.key a)).map (·.2)

def has (m : KeyedMap α β) (a : α) : Bool := Assoc.has (Keyed.key a == ·) m.entries

/-- Gives a node a value; a node that is already there keeps its place and its first form. -/
def set (m : KeyedMap α β) (a : α) (v : β) : KeyedMap α β :=
  let node := ((m.entry? (Keyed.key a)).map (·.1)).getD a
  ⟨Assoc.put (· == ·) (Keyed.key a) (node, v) m.entries⟩

def erase (m : KeyedMap α β) (a : α) : KeyedMap α β := ⟨Assoc.erase (Keyed.key a == ·) m.entries⟩

def ofList (es : List (α × β)) : KeyedMap α β := es.foldl (fun m e => m.set e.1 e.2) empty

/-- The nodes and their values, in order. -/
def toList (m : KeyedMap α β) : List (α × β) := m.entries.map (·.2)

def nodes (m : KeyedMap α β) : List α := m.entries.map (·.2.1)

def values (m : KeyedMap α β) : List β := m.entries.map (·.2.2)

theorem get?_set_self (m : KeyedMap α β) (a : α) (v : β) : (m.set a v).get? a = some v := by
  simp [get?, set, entry?, Assoc.find?_put_self]

theorem get?_set_of_ne (m : KeyedMap α β) {a b : α} (v : β) (h : Keyed.key b ≠ Keyed.key a) :
    (m.set a v).get? b = m.get? b := by
  simp [get?, set, entry?, Assoc.find?_put_of_ne _ _ h]

end KeyedMap

/-- A set of nodes, told apart by their keys. -/
structure KeyedSet (α : Type) where
  entries : List (String × α)

namespace KeyedSet

variable {α : Type} [Keyed α]

def empty : KeyedSet α := ⟨[]⟩

def size (s : KeyedSet α) : Nat := s.entries.length

def hasKey (s : KeyedSet α) (key : String) : Bool := Assoc.has (key == ·) s.entries

def has (s : KeyedSet α) (a : α) : Bool := s.hasKey (Keyed.key a)

/-- Adds a node unless one with its key is there. -/
def add (s : KeyedSet α) (a : α) : KeyedSet α :=
  if s.has a then s else ⟨s.entries ++ [(Keyed.key a, a)]⟩

def ofList (as : List α) : KeyedSet α := as.foldl add empty

def toList (s : KeyedSet α) : List α := s.entries.map (·.2)

/-- Whether every key of the set is a key of the other. -/
def subset (s t : KeyedSet α) : Bool := s.entries.all fun e => t.hasKey e.1

omit [Keyed α] in
theorem hasKey_append (es fs : List (String × α)) (k : String) :
    hasKey ⟨es ++ fs⟩ k = (hasKey ⟨es⟩ k || hasKey ⟨fs⟩ k) := by
  simp [hasKey, Assoc.has, List.any_append]

/-- After a node is added the set has its key and the keys it had. -/
theorem hasKey_add (s : KeyedSet α) (a : α) (k : String) :
    (s.add a).hasKey k = (k == Keyed.key a || s.hasKey k) := by
  unfold add
  split
  · rename_i h
    by_cases hk : k = Keyed.key a
    · subst hk; simpa [has] using h
    · simp [hk]
  · rw [hasKey_append]
    simp [hasKey, Assoc.has, Bool.or_comm]

end KeyedSet

end QueryAlgebra
