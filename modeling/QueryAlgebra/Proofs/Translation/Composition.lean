import QueryAlgebra.Proofs.Translation.History
import QueryAlgebra.Proofs.Translation.Image
import QueryAlgebra.Proofs.Translation.Provenance
import QueryAlgebra.Proofs.Tree.Kinds

/-!
# What translations are composed of

What is remembered for a feature may have been made for another one with its key. It was made by a
node all the same, and so was every symbol of a source.

* `Rooted`: all that is remembered was given by nodes that keep rules.
* `Composed`: how the symbol of a source is made of the symbols of its parts.
* `rooted`: this holds of everything that a translator has done.
* `source_compiled`, `feature_compiled`: what is known of a tree that was translated behind others.
* `Rules.plain`: rules under which a key tells what its feature becomes.
-/

namespace QueryAlgebra

namespace Translation

variable {S F : Type}

/-! ### Nodes and their symbols -/

/-- All that is remembered was given by nodes that keep the rules. -/
def Rooted (b : Backend S F) (p : Rules) (m : List (String × F)) : Prop :=
  ∀ k x, Remembers m k x →
    ∃ (f : Feature) (o : KeyedMap Source S), f.Obeys p ∧ f.key = k ∧ b.Gives m o f (.ok x)

/-- The symbol of a source is made of those of its parts. `M` holds of what was remembered when its
features had been translated. -/
inductive Composed (b : Backend S F) (M : List (String × F) → Prop) : Source → S → Prop where
  | table {t : Schema} {x : S} {xs : List F} {y : Option F}
      (h : b.table t (b.sources.get? (.table t)) = .ok x) : Composed b M (.table t) (b.scan x xs y)
  | reference {s : Source} {n : String} {x : S} (h : Composed b M s x) :
    Composed b M (.reference s n) (b.reference x n).1
  | join {l r : Source} {k : JoinType} {c : Option Feature} {m : List (String × F)} {x y : S}
      {z : Option F} (hl : Composed b M l x) (hr : Composed b M r y) (hm : M m)
      (hz : Remembered m c.toList z.toList) :
    Composed b M (.join l r k c) ((b.sources.get? (.join l r k c)).getD (b.join x y z k))
  | set {l r : Source} {k : SetOp} {x y : S} (hl : Composed b M l x) (hr : Composed b M r y) :
    Composed b M (.set l r k) ((b.sources.get? (.set l r k)).getD (b.set x y k))
  | query {s : Source} {sel : List Feature} {pre : Option Feature} {grp : List Feature}
      {post : Option Feature} {ord : List OrderTerm} {rows : Option RowRange}
      {m : List (String × F)} {x : S} {xs : List F} {y : Option F} {ys : List F} {z : Option F}
      {zs : List (OrderSymbol F)} (hs : Composed b M s x) (hm : M m)
      (hsel : Remembered m (Source.query s sel pre grp post ord rows).features xs)
      (hpre : Remembered m pre.toList y.toList) (hgrp : Remembered m grp ys)
      (hpost : Remembered m post.toList z.toList) (hord : RememberedTerms m ord zs) :
    Composed b M (.query s sel pre grp post ord rows)
      ((b.sources.get? (.query s sel pre grp post ord rows)).getD (b.query x xs y ys z zs rows))

theorem Composed.mono {b : Backend S F} {M N : List (String × F) → Prop} (weaker : ∀ m, M m → N m)
    {s : Source} {x : S} (h : Composed b M s x) : Composed b N s x := by
  induction h with
  | table h => exact .table h
  | reference _ ih => exact .reference ih
  | join _ _ hm hz ihl ihr => exact .join ihl ihr (weaker _ hm) hz
  | set _ _ ihl ihr => exact .set ihl ihr
  | query _ hm hsel hpre hgrp hpost hord ih =>
    exact .query ih (weaker _ hm) hsel hpre hgrp hpost hord

/-- Everything that was translated is rooted and composed. -/
def rooted (b : Backend S F) (p : Rules) : Invariant S F where
  rules := p
  memo := Rooted b p
  origins _ := True
  source := Composed b (Rooted b p)
  fault _ := True

theorem rooted_lawful (b : Backend S F) {p : Rules} (selected : p.Selected)
    (connective : ∀ op ∈ connectives, ∀ f g, p.feature (.expression op [f, g] none)) :
    (rooted b p).Lawful b where
  selected := selected
  connective op hop f g _ _ := connective op hop f g
  nowhere := trivial
  put := by
    intro f m o x hf hm _ _ new gives k y hy
    by_cases hk : k = f.key
    · subst hk
      obtain rfl : x = y := by
        rw [Remembers, Assoc.find?_put_self] at hy
        exact Option.some.inj hy
      exact ⟨f, o, hf, rfl, gives.mono fun _ _ h => remembers_put_of_new new x h⟩
    · rw [Remembers, Assoc.find?_put_of_ne _ _ hk] at hy
      obtain ⟨g, o', hg, hkey, hgives⟩ := hm k y hy
      exact ⟨g, o', hg, hkey, hgives.mono fun _ _ h => remembers_put_of_new new x h⟩
  refused _ _ _ _ := trivial
  table _ hx := ⟨fun _ _ => trivial, fun _ _ => .table hx⟩
  noTable _ := trivial
  reference _ hs := ⟨fun _ _ => trivial, .reference hs⟩
  join _ hm hl hr hz := .join hl hr hm hz
  set _ hl hr := .set hl hr
  query _ hm hs hsel hpre hgrp hpost hord := .query hs hm hsel hpre hgrp hpost hord

/-! ### Whole translations behind others -/

namespace Invariant.Lawful

variable {I : Invariant S F} {b : Backend S F} (hL : I.Lawful b) (nothing : I.memo [])
  {history : List Tree} (known : ∀ tree ∈ history, tree.Obeys I.rules)
include hL nothing known

/-- **What is known of a source that was translated behind others.** -/
theorem source_compiled {s : Source} (hs : s.Obeys I.rules) {x : S} {t : Translator S F}
    (compiled : ((Translator.ofBackend b).after history).serve (.finish (.source s))
      = (.ok (some (.source x)), t)) : I.source s x := by
  obtain ⟨hb, clean, hI⟩ := hL.after_holds known (t := .ofBackend b) rfl State.clean_fresh
    ⟨nothing, hL.nowhere, Readings.All.empty⟩
  obtain ⟨w, notes, run, -⟩ := Translator.finished_source clean compiled
  have outcome := hL.source_outcome s hs
    (w := ((Translator.ofBackend b).after history).cleared.state.bench)
    ⟨hI.memo, hI.origins, hI.tables⟩
  rw [hb] at run
  rw [run] at outcome
  exact outcome.ok x rfl

/-- **What is known of a feature that was translated behind others**: a node gave its symbol, for the
symbols that are remembered for its parts. -/
theorem feature_compiled {f : Feature} (hf : f.Obeys I.rules) {x : F} {t : Translator S F}
    (compiled : ((Translator.ofBackend b).after history).serve (.finish (.feature f))
      = (.ok (some (.feature x)), t)) :
    ∃ m o, I.memo m ∧ I.origins o ∧ b.Gives m o f (.ok x) := by
  obtain ⟨hb, clean, hI⟩ := hL.after_holds known (t := .ofBackend b) rfl State.clean_fresh
    ⟨nothing, hL.nowhere, Readings.All.empty⟩
  obtain ⟨-, -, holds, gives⟩ := hL.keptBy.finished hb clean hI hf compiled
  exact ⟨_, _, holds.memo, holds.origins, gives⟩

end Invariant.Lawful

end Translation

/-! ### Rules that keys keep -/

/-- No struct occurs, the kinds of elements are told by their keys, and literals are of a sort. -/
def Rules.plain (kinds : String → Kind) (L : Value → Kind → Prop) : Rules :=
  (Rules.distinct.and (.told kinds)).and (.literals L)

section

variable {kinds : String → Kind} {L : Value → Kind → Prop}

theorem Rules.plain_distinct : (Rules.plain kinds L).Implies .distinct where
  feature _ h := h.1.1
  source _ h := h.1.1

theorem Rules.plain_told : (Rules.plain kinds L).Implies (.told kinds) where
  feature _ h := h.1.2
  source _ h := h.1.2

theorem Rules.plain_offered : (Rules.plain kinds L).Offered where
  table _ h c hc := ⟨⟨trivial, h.1.2 c hc⟩, trivial⟩
  reference _ _ h c hc := ⟨⟨trivial, h.1.1.2 c hc⟩, trivial⟩

theorem Translation.plain_lawful {S F : Type} (b : Backend S F) :
    (rooted b (.plain kinds L)).Lawful b :=
  rooted_lawful b Rules.plain_offered.selected fun _ _ _ _ => ⟨⟨nofun, trivial⟩, trivial⟩

end

end QueryAlgebra
