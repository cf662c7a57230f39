import QueryAlgebra.Proofs.Translation.Composition

/-!
# Backends in step

Two backends that refuse the same nodes go the same way through every tree, also behind other trees. What
they make can be compared by an invariant of the pairs of their symbols.

* `Reflects`: a translator whose bench is the image of that of another one; `Reflects.finish`: a whole
  translation keeps that, `Reflects.after`: so do many.
* `Backend.beside`: the backend of the pairs of symbols of two backends.
* `InStep`: two backends that refuse the same nodes; `InStep.fst`, `InStep.snd`: they are images of the
  backend of pairs.
* `InStep.source_compiled`: what is known of the symbols that both make of a source behind other trees.
-/

namespace QueryAlgebra.Translation

variable {S F S' F' α β : Type}

/-! ### Images behind other trees -/

section

variable {L : Value → Kind → Prop} {b : Backend S F} {b' : Backend S' F'} {φ : S → S'} {ψ : F → F'}

/-- A whole translation follows another one. -/
theorem directFinish_follows (hb : Images L b b' φ ψ) {tree : Tree} (h : tree.Obeys (.literals L)) :
    Follows L φ ψ (Symbol.map φ ψ) (directFinish b tree) (directFinish b' tree) := by
  cases tree with
  | source s =>
    refine (directSource_follows hb s h).bind fun x => Follows.bind (.modified (fun w => ?_) fun w => ?_)
      fun _ => .pure (Symbol.map φ ψ) (.source x)
    · rfl
    · rfl
  | feature f =>
    exact (directFeature_follows hb f h).bind fun x => .pure (Symbol.map φ ψ) (.feature x)

/-- Two translators with empty stacks, the bench of the one being the image of that of the other. -/
structure Reflects (L : Value → Kind → Prop) (b : Backend S F) (b' : Backend S' F') (φ : S → S')
    (ψ : F → F') (t : Translator S F) (t' : Translator S' F') : Prop where
  backend  : t.backend = b
  backend' : t'.backend = b'
  clean    : t.state.Clean
  clean'   : t'.state.Clean
  sound    : t.state.bench.tables.Sound (Feature.Obeys (.literals L))
  bench    : t'.state.bench = t.state.bench.map φ ψ

namespace Reflects

/-- **A whole translation ends in an image**, and leaves images. -/
theorem finish (hb : Images L b b' φ ψ) {t : Translator S F} {t' : Translator S' F'}
    (h : Reflects L b b' φ ψ t t') {tree : Tree} (obeys : tree.Obeys (.literals L)) :
    (t'.serve (.finish tree)).1
        = (t.serve (.finish tree)).1.map (Option.map (Symbol.map φ ψ)) ∧
      Reflects L b b' φ ψ (t.serve (.finish tree)).2 (t'.serve (.finish tree)).2 := by
  obtain ⟨rfl, rfl, clean, clean', sound, bench⟩ := h
  have begun : t'.cleared.state.bench = t.cleared.state.bench.map φ ψ := by
    show ({ t'.state.bench with scans := [], notes := [] } : Bench S' F') = _
    rw [bench]
    rfl
  obtain ⟨same, after⟩ := directFinish_follows hb obeys t.cleared.state.bench sound
  rw [t.serve_finish clean, t'.serve_finish clean', begun, same]
  refine ⟨?_, rfl, rfl, clean, clean', after, rfl⟩
  dsimp only
  cases (eval (directFinish t.backend tree) t.cleared.state.bench).1 <;> rfl

/-- So do whole translations behind one another. -/
theorem after (hb : Images L b b' φ ψ) : ∀ {history : List Tree},
    (∀ tree ∈ history, tree.Obeys (.literals L)) → ∀ {t : Translator S F} {t' : Translator S' F'},
    Reflects L b b' φ ψ t t' → Reflects L b b' φ ψ (t.after history) (t'.after history)
  | [], _, _, _, h => h
  | tree :: _, obeys, _, _, h =>
    after hb (fun tree ht => obeys tree (List.mem_cons_of_mem _ ht))
      (h.finish hb (obeys tree List.mem_cons_self)).2

theorem fresh : Reflects L b b' φ ψ (.ofBackend b) (.ofBackend b') :=
  ⟨rfl, rfl, State.clean_fresh, State.clean_fresh, Readings.All.empty, rfl⟩

end Reflects

end

/-! ### Pairs of symbols -/

/-- Both computations end well, or both in the same fault. -/
inductive Agree : Except Fault α → Except Fault β → Prop where
  | ok (x : α) (y : β) : Agree (.ok x) (.ok y)
  | error (e : Fault) : Agree (.error e) (.error e)

/-- What both computations give. -/
def both (r : Except Fault α) (r' : Except Fault β) : Except Fault (α × β) := do return (← r, ← r')

namespace Agree

variable {r : Except Fault α} {r' : Except Fault β} (h : Agree r r')
include h

theorem fst : r = (both r r').map Prod.fst := by cases h <;> rfl

theorem snd : r' = (both r r').map Prod.snd := by cases h <;> rfl

end Agree

/-- The backend of pairs of symbols, one from either backend. -/
def Backend.beside (b : Backend S F) (b' : Backend S' F') (sources : KeyedMap Source (S × S'))
    (features : KeyedMap Feature (F × F')) : Backend (S × S') (F × F') where
  sources := sources
  features := features
  table t p := both (b.table t (p.map (·.1))) (b'.table t (p.map (·.2)))
  scan x xs y := (b.scan x.1 (xs.map (·.1)) (y.map (·.1)), b'.scan x.2 (xs.map (·.2)) (y.map (·.2)))
  reference x n :=
    let (s, o) := b.reference x.1 n
    let (s', o') := b'.reference x.2 n
    ((s, s'), (o, o'))
  join x y z k := (b.join x.1 y.1 (z.map (·.1)) k, b'.join x.2 y.2 (z.map (·.2)) k)
  set x y k := (b.set x.1 y.1 k, b'.set x.2 y.2 k)
  query x xs y ys z zs rows :=
    (b.query x.1 (xs.map (·.1)) (y.map (·.1)) (ys.map (·.1)) (z.map (·.1))
      (zs.map fun o => (o.1.1, o.2)) rows,
     b'.query x.2 (xs.map (·.2)) (y.map (·.2)) (ys.map (·.2)) (z.map (·.2))
      (zs.map fun o => (o.1.2, o.2)) rows)
  element x s n := (b.element x.1 s n, b'.element x.2 s n)
  aliased x n := (b.aliased x.1 n, b'.aliased x.2 n)
  literal v k := both (b.literal v k) (b'.literal v k)
  expression op xs k := both (b.expression op (xs.map (·.1)) k) (b'.expression op (xs.map (·.2)) k)
  window x xs ys fr := both (b.window x.1 (xs.map (·.1)) (ys.map fun o => (o.1.1, o.2)) fr)
    (b'.window x.2 (xs.map (·.2)) (ys.map fun o => (o.1.2, o.2)) fr)

/-- Two backends that refuse the same nodes, with pairs of the symbols that are provided to them. -/
structure InStep (b : Backend S F) (b' : Backend S' F') (ss : KeyedMap Source (S × S'))
    (fs : KeyedMap Feature (F × F')) : Prop where
  sources    : ∀ s, b.sources.get? s = (ss.get? s).map (·.1)
  sources'   : ∀ s, b'.sources.get? s = (ss.get? s).map (·.2)
  features   : ∀ f, b.features.get? f = (fs.get? f).map (·.1)
  features'  : ∀ f, b'.features.get? f = (fs.get? f).map (·.2)
  table      : ∀ t p p', Agree (b.table t p) (b'.table t p')
  literal    : ∀ v k, Agree (b.literal v k) (b'.literal v k)
  expression : ∀ op xs xs' k, Agree (b.expression op xs k) (b'.expression op xs' k)
  window     : ∀ x x' xs xs' ys ys' fr, Agree (b.window x xs ys fr) (b'.window x' xs' ys' fr)

namespace InStep

variable {b : Backend S F} {b' : Backend S' F'} {ss : KeyedMap Source (S × S')}
  {fs : KeyedMap Feature (F × F')} (h : InStep b b' ss fs)
  {L : Value → Kind → Prop}
include h

/-- The first backend is an image of the pairs. -/
theorem fst : Images L (b.beside b' ss fs) b Prod.fst Prod.fst where
  sources := h.sources
  features := h.features
  table _ _ := (h.table _ _ _).fst
  scan _ _ _ := rfl
  reference _ _ := rfl
  join _ _ _ _ := rfl
  set _ _ _ := rfl
  query _ _ _ _ _ _ _ := rfl
  element _ _ _ := rfl
  aliased _ _ := rfl
  literal _ _ _ := (h.literal _ _).fst
  expression _ _ _ := (h.expression _ _ _ _).fst
  window _ _ _ _ := (h.window _ _ _ _ _ _ _).fst

/-- So is the second one. -/
theorem snd : Images L (b.beside b' ss fs) b' Prod.snd Prod.snd where
  sources := h.sources'
  features := h.features'
  table _ _ := (h.table _ _ _).snd
  scan _ _ _ := rfl
  reference _ _ := rfl
  join _ _ _ _ := rfl
  set _ _ _ := rfl
  query _ _ _ _ _ _ _ := rfl
  element _ _ _ := rfl
  aliased _ _ := rfl
  literal _ _ _ := (h.literal _ _).snd
  expression _ _ _ := (h.expression _ _ _ _).snd
  window _ _ _ _ := (h.window _ _ _ _ _ _ _).snd

/-- **What is known of the symbols that two backends in step make of a source** behind other trees, if an
invariant is lawful for their pairs. -/
theorem source_compiled {I : Invariant (S × S') (F × F')} (hL : I.Lawful (b.beside b' ss fs))
    (nothing : I.memo []) {history : List Tree} (known : ∀ tree ∈ history, tree.Obeys I.rules)
    {s : Source} (obeys : s.Obeys I.rules) {x : S} {t : Translator S F}
    (compiled : ((Translator.ofBackend b).after history).serve (.finish (.source s))
      = (.ok (some (.source x)), t)) :
    ∃ x' t', ((Translator.ofBackend b').after history).serve (.finish (.source s))
      = (.ok (some (.source x')), t') ∧ I.source s (x, x') := by
  have plain : ∀ tree : Tree, tree.Obeys (.literals fun _ _ => True) := by
    have weaker : Rules.none.Implies (.literals fun _ _ => True) :=
      ⟨fun f _ => by cases f <;> trivial, fun _ _ => trivial⟩
    exact fun tree => tree.obeys_none.mono weaker
  -- Both translations are images of that of the pairs, which must end well like the first of them.
  have every : ∀ tree ∈ history, tree.Obeys (.literals fun _ _ => True) := fun tree _ => plain tree
  have first := ((Reflects.fresh.after h.fst every).finish h.fst (plain (.source s))).1
  have second := ((Reflects.fresh.after h.snd every).finish h.snd (plain (.source s))).1
  rw [compiled] at first
  obtain ⟨y, made, image⟩ := map_eq_ok.1 first.symm
  obtain ⟨z, rfl, hz⟩ := Option.map_eq_some_iff.1 image
  cases z with
  | feature => cases hz
  | source z =>
    obtain rfl : z.1 = x := by cases hz; rfl
    rw [made] at second
    exact ⟨z.2, _, Prod.ext second rfl, hL.source_compiled nothing known obeys (Prod.ext made rfl)⟩

end InStep

end QueryAlgebra.Translation
