import QueryAlgebra.Proofs.Sql.Compile
import QueryAlgebra.Proofs.Sql.Statement

/-!
# What is written for built sources

* `Rules.written`: what holds of the skeletons of built trees, whatever names are in them.
* `Dialect.compiled_spelling`: the text of a built source is that of its skeleton.
-/

namespace QueryAlgebra

/-- What skeletons of built trees have, whatever their names and literals are. -/
abbrev Rules.written : Rules :=
  .outline (fun _ => True) (fun v k => (∃ u : Value, k.cast u = .ok v) ∧ True) fun _ => True

/-- Any names, literals and directions will do. -/
theorem Rules.none_implies_spelled :
    Rules.none.Implies (.spelled (fun _ => True) (fun _ _ => True) fun _ => True) where
  feature f _ := by
    cases f with
    | window fn ps os fr => exact fun _ _ => trivial
    | _ => trivial
  source s _ := by
    cases s with
    | table t => exact ⟨trivial, fun _ _ => trivial⟩
    | query s sel pre grp post ord rows => exact fun _ _ => trivial
    | _ => trivial

namespace Sql

open Translation

theorem writable_of_built {s : Source} (built : s.Built) :
    s.Obeys (.writable (fun _ => True) (fun v k => (∃ u : Value, k.cast u = .ok v) ∧ True)
      fun _ => True) :=
  Source.Built.obeys Rules.spelled_ensures_writable s built
    (Source.Obeys.mono Rules.none_implies_spelled s s.obeys_none)

/-- What the skeleton backend gives for a source, and the state it ends in. -/
theorem skeleton_compiled_eq (s : Source) :
    skeleton.compiled (.source s)
      = (eval (directSource skeleton s) Bench.fresh).1.map fun x => some (.source x) := by
  rw [Backend.compiled, Translator.serve_finish _ State.clean_fresh]
  obtain ⟨_, finished⟩ := eval_directFinish_source skeleton s Bench.fresh
  show (eval (directFinish skeleton (.source s)) Bench.fresh).1.map some = _
  rw [finished]
  cases (eval (directSource skeleton s) Bench.fresh).1 <;> rfl

/-- **The text of a built source is that of its skeleton.** -/
theorem Dialect.compiled_spelling {d : Dialect} {s : Source} (built : s.Built) {text : String}
    (compiled : d.compiled s = .ok (some (.source text))) :
    ∃ x : Source, (eval (directSource skeleton s) Bench.fresh).1 = .ok x ∧ x.Obeys .written ∧
      x.type = s.type ∧ text = d.spellSource x := by
  have writable := writable_of_built built
  have literals : s.Obeys (.literals fun v k => (∃ u : Value, k.cast u = .ok v) ∧ True) :=
    Source.Obeys.mono Rules.writable_implies_literals s writable
  have spelled : d.compiled s = (skeleton.compiled (.source s)).map
      (Option.map (Symbol.map d.spellSource d.spellFeature)) :=
    (d.backend_spelling _).images.compiled literals
  rw [compiled] at spelled
  obtain ⟨y, hy, mapped⟩ := map_eq_ok.1 spelled.symm
  obtain ⟨x, rfl, outline, same⟩ :=
    compiled_source_outline ⟨fun _ => trivial, fun _ _ => trivial⟩ writable hy
  rw [skeleton_compiled_eq] at hy
  obtain ⟨z, hz, hzx⟩ := map_eq_ok.1 hy
  cases hzx
  cases mapped
  exact ⟨x, hz, outline, same, rfl⟩

/-! ### Texts of given sources -/

/-- The text that a translation ends in. -/
def textOf : Except Fault (Option (Translation.Symbol String String)) → Option String
  | .ok (some (.source text)) => some text
  | _                         => none

theorem eq_of_textOf {r : Except Fault (Option (Translation.Symbol String String))} {text : String}
    (h : textOf r = some text) : r = .ok (some (.source text)) := by
  unfold textOf at h
  split at h
  · cases h; rfl
  · cases h

end Sql

end QueryAlgebra
