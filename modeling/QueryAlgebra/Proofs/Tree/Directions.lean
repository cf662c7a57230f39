import QueryAlgebra.Feature.Build
import Mathlib.Data.List.Forall2

/-!
# What directions are written as

A direction is written as one of its words, in any letter case. Since the words are looked up in a
record, the names of what every record knows are words too, of directions that are neither of the two.

* `AnyCase`: a word of small letters, in any letter case.
* `Direction.words`, `Direction.Token`: the words for a direction, and the texts that spell one.
* `Direction.ofToken_eq_ok_iff`, `Direction.ofToken_eq_error`: these texts are read, all others are
  refused.
-/

namespace QueryAlgebra

/-! ### Letter case -/

theorem toNat_toLower (c : Char) :
    c.toLower.toNat = if 65 ≤ c.toNat ∧ c.toNat ≤ 90 then c.toNat + 32 else c.toNat := by
  have capital : (c.val ≥ 'A'.val ∧ c.val ≤ 'Z'.val) ↔ (65 ≤ c.toNat ∧ c.toNat ≤ 90) := Iff.rfl
  unfold Char.toLower
  split <;> rename_i h <;> rw [capital] at h
  · rw [if_pos h]
    show (c.val + 32).toNat = c.toNat + 32
    rw [UInt32.toNat_add, ← Char.toNat]
    show (c.toNat + 32) % 4294967296 = _
    omega
  · rw [if_neg h]

theorem toNat_toUpper (c : Char) :
    c.toUpper.toNat = if 97 ≤ c.toNat ∧ c.toNat ≤ 122 then c.toNat - 32 else c.toNat := by
  have small : ('a'.val ≤ c.val ∧ c.val ≤ 'z'.val) ↔ (97 ≤ c.toNat ∧ c.toNat ≤ 122) := Iff.rfl
  unfold Char.toUpper
  split <;> rename_i h <;> rw [small] at h
  · rw [if_pos h]
    -- The distance to the capital letters is negative, so that the sum wraps around.
    show (c.val + 4294967264).toNat = c.toNat - 32
    rw [UInt32.toNat_add, ← Char.toNat]
    show (c.toNat + 4294967264) % 4294967296 = _
    omega
  · rw [if_neg h]

/-- A character is a letter in small if it is that letter or its capital. -/
theorem toLower_eq_iff {c l : Char} (small : l.isUpper = false) :
    c.toLower = l ↔ c = l ∨ c = l.toUpper := by
  have noCapital : ¬(65 ≤ l.toNat ∧ l.toNat ≤ 90) := of_decide_eq_false small
  simp only [← Char.toNat_inj, toNat_toLower, toNat_toUpper]
  split <;> split <;> omega

/-- A text spells a word in any letter case. -/
def AnyCase (word text : String) : Prop :=
  List.Forall₂ (fun l c => c = l ∨ c = l.toUpper) word.toList text.toList

/-- A text spells a word of small letters if it is that word in small letters. -/
theorem toLower_eq_iff_anyCase {word : String} (small : ∀ l ∈ word.toList, l.isUpper = false)
    (text : String) : text.toLower = word ↔ AnyCase word text := by
  have letters : ∀ ls cs : List Char, (∀ l ∈ ls, l.isUpper = false) →
      (cs.map Char.toLower = ls ↔ List.Forall₂ (fun l c => c = l ∨ c = l.toUpper) ls cs) := by
    intro ls
    induction ls with
    | nil => simp
    | cons l r ih =>
      intro cs h
      obtain ⟨first, rest⟩ := List.forall_mem_cons.1 h
      cases cs with
      | nil => simp
      | cons c cs => simp [toLower_eq_iff first, ih cs rest]
  rw [← String.toList_inj]
  show (text.map Char.toLower).toList = word.toList ↔ _
  rw [String.toList_map]
  exact letters _ _ small

/-! ### Tokens -/

theorem Record.Member.name_of_ofName? {name : String} {m : Member} (h : ofName? name = some m) :
    m.name = name := by
  simpa using List.find?_some h

namespace Direction

/-- The words for a direction. What every record knows goes by its name. -/
def words : Direction → List String
  | .ascending   => ["asc", "ascending"]
  | .descending  => ["desc", "descending"]
  | .inherited m => [m.name]

/-- The tokens of a direction are its words, in any letter case. -/
def Token (d : Direction) (text : String) : Prop := ∃ word ∈ d.words, AnyCase word text

theorem words_small (d : Direction) : ∀ word ∈ d.words, ∀ l ∈ word.toList, l.isUpper = false := by
  rcases d with _ | _ | (_ | _) <;> simp [words, Record.Member.name, Record.ancestry]

theorem token_iff {d : Direction} {text : String} : d.Token text ↔ text.toLower ∈ d.words := by
  constructor
  · rintro ⟨word, hw, spelled⟩
    rwa [(toLower_eq_iff_anyCase (d.words_small word hw) text).2 spelled]
  · exact fun hw => ⟨_, hw, (toLower_eq_iff_anyCase (d.words_small _ hw) text).1 rfl⟩

/-- **A text is read as a direction if it is one of its tokens.** -/
theorem ofToken_eq_ok_iff {text : String} {d : Direction} : ofToken text = .ok d ↔ d.Token text := by
  rw [token_iff]
  constructor
  · intro h
    unfold ofToken at h
    split at h
    case h_5 =>
      split at h
      · cases h
        exact List.mem_singleton.2 (Record.Member.name_of_ofName? ‹_›).symm
      · cases h
    all_goals
      cases h
      simp [words, *]
  · intro h
    rcases d with _ | _ | (_ | _) <;> simp only [words, List.mem_cons, List.not_mem_nil, or_false] at h
    · rcases h with h | h <;> simp [ofToken, h]
    · rcases h with h | h <;> simp [ofToken, h]
    · simp [ofToken, h, Record.Member.ofName?, Record.Member.name]
    · simp [ofToken, h, Record.Member.ofName?, Record.Member.name, Record.ancestry]

/-- **Any other text is refused**, and named. -/
theorem ofToken_eq_error {text : String} {e : Fault} (h : ofToken text = .error e) :
    e = .unknownDirection text ∧ ∀ d : Direction, ¬d.Token text := by
  refine ⟨?_, fun d token => nomatch h.symm.trans (ofToken_eq_ok_iff.2 token)⟩
  unfold ofToken at h
  split at h <;> try cases h
  split at h <;> cases h
  rfl

/-- Each of the two directions is a token of itself. -/
theorem Proper.token_name {d : Direction} (h : d.Proper) : d.Token d.name := by
  have same : ∀ word : String, AnyCase word word := fun word => List.forall₂_same.2 fun _ _ => .inl rfl
  rcases h with rfl | rfl <;> exact ⟨_, by simp [words, name], same _⟩

end Direction

end QueryAlgebra
