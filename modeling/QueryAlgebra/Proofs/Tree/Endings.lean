import QueryAlgebra.Proofs.Tree.Reading
import Mathlib.Data.List.Chain

/-!
# Names at the end of keys

Read from the front, a key tells its tree only where no struct spells marks of keys. But the name of
an alias, of an element and of a reference is the last thing in a key, and read backwards it ends at
the first quote that no backslash protects. So these names are told by keys in all trees.

* `Text.json_suffix_inj`: a JSON string at the end of a text is told by the text.
* `Feature.name?_eq_of_key`: features with one key have one name.
* `Feature.source_key_of_key`: what stands before the name of an element is the key of its source.
* `Source.name_eq_of_key`: references with one key have one name.
-/

namespace QueryAlgebra

namespace Text

/-- A character of a JSON string is written with a quote only behind a backslash. -/
theorem isChain_jsonChar (c : Char) : (jsonChar c).IsChain (fun a b => b = '"' → a = '\\') := by
  have digit : ∀ n : Fin 16, hexDigit n ≠ '"' := by decide
  unfold jsonChar
  split_ifs
  all_goals first
    | exact .singleton _
    | simp [digit ⟨c.toNat / 16, by omega⟩, digit ⟨c.toNat % 16, by omega⟩]
    | simp

theorem head_jsonChar (c : Char) : (jsonChar c).head? ≠ some '"' ∧ jsonChar c ≠ [] := by
  unfold jsonChar
  split_ifs <;> simp_all

/-- No quote stands inside the body of a JSON string without a backslash before it. -/
theorem isChain_body (cs : List Char) :
    (cs.flatMap jsonChar).IsChain (fun a b => b = '"' → a = '\\') ∧
      (cs.flatMap jsonChar).head? ≠ some '"' := by
  induction cs with
  | nil => exact ⟨.nil, nofun⟩
  | cons c r ih =>
    obtain ⟨head, nonempty⟩ := head_jsonChar c
    rw [List.flatMap_cons]
    refine ⟨List.isChain_append.2 ⟨isChain_jsonChar c, ih.1, fun x _ y hy quote => ?_⟩, ?_⟩
    · exact absurd (by rw [Option.mem_def.1 hy, quote]) ih.2
    · rwa [List.head?_append_of_ne_nil _ nonempty]

/-- What stands before a quote inside the body of a JSON string. -/
theorem backslash_of_body {cs u v : List Char} {c : Char}
    (h : cs.flatMap jsonChar = u ++ c :: '"' :: v) : c = '\\' := by
  have chain := (isChain_body cs).1
  rw [h, List.isChain_append] at chain
  exact (List.isChain_cons_cons.1 chain.2.1).1 rfl

theorem toList_json (s : String) : (json s).toList = '"' :: (s.toList.flatMap jsonChar ++ ['"']) := by
  simp [json]

/-- A JSON string that ends a text is no proper end of another one that follows no backslash. -/
theorem not_json_suffix {s t : String} {w : List Char} {c : Char} (hc : c ≠ '\\')
    (h : (json t).toList = w ++ c :: (json s).toList) : False := by
  rw [toList_json, toList_json] at h
  cases w with
  | nil =>
    -- The quote that opens the one would open the body of the other.
    obtain ⟨-, h⟩ := List.cons.inj h
    have head := (isChain_body t.toList).2
    cases hb : t.toList.flatMap jsonChar with
    | nil => simp [hb] at h
    | cons d r =>
      rw [hb, List.cons_append] at h
      exact head (by rw [hb, (List.cons.inj h).1]; rfl)
  | cons a w =>
    -- The quote that opens the one stands inside the body of the other.
    obtain ⟨-, h⟩ := List.cons.inj h
    have body : t.toList.flatMap jsonChar = w ++ c :: '"' :: s.toList.flatMap jsonChar :=
      List.append_cancel_right (by simpa using h)
    exact hc (backslash_of_body body)

/-- **A JSON string at the end of a text is told by the text**, if no backslash stands before it. -/
theorem json_suffix_inj {u v : List Char} {c d : Char} (hc : c ≠ '\\') (hd : d ≠ '\\')
    {s t : String} (h : u ++ c :: (json s).toList = v ++ d :: (json t).toList) : s = t := by
  rcases List.append_eq_append_iff.1 h with ⟨w, -, hw⟩ | ⟨w, -, hw⟩
  · cases w with
    | nil => exact (json_append_inj (congrArg (· ++ []) (List.cons.inj hw).2)).1
    | cons a w => exact (not_json_suffix hd (List.cons.inj hw).2).elim
  · cases w with
    | nil => exact (json_append_inj (congrArg (· ++ []) (List.cons.inj hw).2)).1.symm
    | cons a w => exact (not_json_suffix hc (List.cons.inj hw).2).elim

/-- So is one before a closing parenthesis. -/
theorem json_closed_inj {u v : List Char} {c d : Char} (hc : c ≠ '\\') (hd : d ≠ '\\')
    {s t : String}
    (h : u ++ c :: ((json s).toList ++ [')']) = v ++ d :: ((json t).toList ++ [')'])) : s = t := by
  rw [← List.cons_append, ← List.cons_append, ← List.append_assoc, ← List.append_assoc] at h
  exact json_suffix_inj hc hd (List.append_cancel_right h)

end Text

open Text

/-- **Features with one key have one name**, or none. -/
theorem Feature.name?_eq_of_key {f g : Feature} (h : f.key = g.key) : f.name? = g.name? := by
  have sort := type_eq h
  have h := congrArg String.toList h
  cases f with
  | aliased f n =>
    cases g with
    | aliased g m =>
      refine congrArg some (json_closed_inj (c := ' ') (d := ' ')
        (u := "Aliased(".toList ++ f.key.toList ++ " AS".toList)
        (v := "Aliased(".toList ++ g.key.toList ++ " AS".toList) (by decide) (by decide) ?_)
      simpa [Feature.key] using h
    | _ => simp [Feature.type] at sort
  | element s n k =>
    cases g with
    | element t m l =>
      refine congrArg some (json_closed_inj (c := '.') (d := '.')
        (u := "Element(".toList ++ s.key.toList) (v := "Element(".toList ++ t.key.toList)
        (by decide) (by decide) ?_)
      simpa [Feature.key] using h
    | _ => simp [Feature.type] at sort
  | _ => cases g <;> first | rfl | simp [Feature.type] at sort

/-- Elements with one key have sources with one key. -/
theorem Feature.source_key_of_key {s t : Source} {n m : String} {k l : Kind}
    (h : (Feature.element s n k).key = (Feature.element t m l).key) : s.key = t.key := by
  obtain rfl : n = m := Option.some.inj (name?_eq_of_key h)
  simpa [Feature.key] using h

/-- **References with one key have one name.** -/
theorem Source.name_eq_of_key {s t : Source} {n m : String}
    (h : (Source.reference s n).key = (Source.reference t m).key) : n = m := by
  have h := congrArg String.toList h
  refine json_closed_inj (c := ' ') (d := ' ')
    (u := "Reference(".toList ++ s.key.toList ++ " AS".toList)
    (v := "Reference(".toList ++ t.key.toList ++ " AS".toList) (by decide) (by decide) ?_
  simpa [Source.key] using h

end QueryAlgebra
