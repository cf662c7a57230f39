import QueryAlgebra.Evaluation.Plan
import QueryAlgebra.Proofs.Translation.Invariant
import QueryAlgebra.Proofs.Tree.Kinds

/-!
# Translation as plain recursion

A feature is translated with a stack of symbols, and nothing is translated twice that has one key. For
columns of tables this gives what recursion over the feature gives, where keys tell all that is looked
at: then whatever is remembered under a key is what recursion gives for each feature with this key.

* `plainFeature`: the symbol of a feature by recursion alone.
* `Rules.columnar`: all elements are columns, and keys tell what is seen of tables and which sign a
  zero has.
* `Hooks.Sees`: what is asked about tables depends on what is seen of them.
* `plainFeature_congr`: recursion gives the same for features with one key.
* `Yields`, `Pushes`: on sound states a computation gives, or leaves on the stack, what recursion gives.
* `translateFeature_pushes`, `finished_plain`: translations give what recursion gives.
* `symbols_shared`: what keys do not tell is shared between features.
-/

namespace QueryAlgebra

/-- All elements are columns of tables. Keys tell what is seen of tables, and the signs of zeros in
literals and in frames. -/
def Rules.columnar {α : Type} (view : Schema → α) (looks : String → α) (values : String → Value)
    (frames : String → Frame) : Rules where
  feature
    | .element s _ _   => ∃ t, s = .table t
    | .literal v k     => v = values (Feature.literal v k).key
    | .window _ _ _ fr => ∀ x ∈ fr, x = frames x.key
    | _                => True
  source
    | .table t => view t = looks t.key
    | _        => True

namespace Translation

variable {S F α β : Type}

/-! ### Recursion -/

/-- The answer to what was asked, as a result. -/
def answered (answer : ExceptT Fault Id α) : Except Fault α := answer

mutual

/-- The symbol of a feature by recursion: nothing is remembered and there is no stack. The symbol
provided for an element is taken in its place; that for an expression or a window replaces its own. -/
def plainFeature (h : Hooks Id S F) : Feature → Except Fault F
  | .aliased f n => do answered (h.aliased (← plainFeature h f) n)
  | .literal v k => answered (h.literal v k)
  | .element s n k => do
    match (← answered (h.lookupFeature (.element s n k))) with
    | some x => return x
    | none   => answered (h.element (← answered (h.origin .empty s)) s n)
  | .expression op args t => do
    let xs ← plainFeatures h args
    let y ← answered (h.expression op xs (Feature.expression op args t).kind)
    return (← answered (h.lookupFeature (.expression op args t))).getD y
  | .window fn ps os fr => do
    let x ← plainFeature h fn
    let xs ← plainFeatures h ps
    let ys ← plainTerms h os
    let z ← answered (h.window x xs ys fr)
    return (← answered (h.lookupFeature (.window fn ps os fr))).getD z

/-- The symbols of features, from left to right. -/
def plainFeatures (h : Hooks Id S F) : List Feature → Except Fault (List F)
  | []     => .ok []
  | f :: r => do
    let x ← plainFeature h f
    return x :: (← plainFeatures h r)

/-- The symbols of features to order by, from left to right. -/
def plainTerms (h : Hooks Id S F) : List OrderTerm → Except Fault (List (OrderSymbol F))
  | []          => .ok []
  | .by f d :: r => do
    let x ← plainFeature h f
    return (x, d) :: (← plainTerms h r)

end

/-! ### What keys tell -/

/-- What is asked about a table depends on its fields and on what is seen of it. -/
structure Hooks.Sees {γ : Type} (h : Hooks Id S F) (view : Schema → γ) : Prop where
  origin  : ∀ t u : Schema, t.fields = u.fields → view t = view u →
    h.origin .empty (.table t) = h.origin .empty (.table u)
  element : ∀ (x : S) (t u : Schema) (n : String), t.fields = u.fields → view t = view u →
    h.element x (.table t) n = h.element x (.table u) n

/-- Of tables only their names are seen by a backend that takes them and their elements by name. -/
theorem Backend.sees_names {b : Backend S F}
    (table : ∀ (t u : Schema) (x : Option S), t.name = u.name → b.table t x = b.table u x)
    (element : ∀ (x : S) (t u : Schema) (n : String), t.name = u.name →
      b.element x (.table t) n = b.element x (.table u) n) : b.hooks.Sees Schema.name where
  origin t u fields name := by
    have key : t.key = u.key := by simp only [Schema.key, fields]
    have provided : b.sources.get? (.table t) = b.sources.get? (.table u) :=
      b.sources.get?_congr (congrArg ("Table" ++ ·) key)
    show b.table t (b.sources.get? (.table t)) = b.table u (b.sources.get? (.table u))
    rw [provided, table t u _ name]
  element x t u n _ name := congrArg Except.ok (element x t u n name)

section

variable {γ : Type} {view : Schema → γ} {looks : String → γ} {values : String → Value}
  {frames : String → Frame} {h : Hooks Id S F} {provided : KeyedMap Feature F}

/-- A built feature without structs whose elements are columns, of which keys tell what is seen. -/
structure Columnar (view : Schema → γ) (looks : String → γ) (values : String → Value)
    (frames : String → Frame) (f : Feature) : Prop where
  built : f.Built
  free  : f.Obeys .distinct
  plain : f.Obeys (.columnar view looks values frames)

namespace Columnar

theorem children {f : Feature} (hf : Columnar view looks values frames f) :
    ∀ c ∈ f.children, Columnar view looks values frames c := by
  have built : ∀ c ∈ f.children, c.Built := by
    cases f with
    | aliased f n => simpa [Feature.children] using hf.built.inv_aliased.1
    | literal v k => simp [Feature.children]
    | element s n k => simp [Feature.children]
    | expression op args t => exact fun c hc => (hf.built.inv_expression.1 c hc).1
    | window fn ps os fr =>
      obtain ⟨hfn, -, hps, hos⟩ := hf.built.inv_window
      intro c hc
      rcases List.mem_append.1 hc with hc | hc
      · exact List.forall_mem_cons.2 ⟨hfn, fun p hp => (hps p hp).1⟩ c hc
      · obtain ⟨o, ho, rfl⟩ := List.mem_map.1 hc
        exact hos o ho
  exact fun c hc => ⟨built c hc, hf.free.children c hc, hf.plain.children c hc⟩

theorem elements {f : Feature} (hf : Columnar view looks values frames f) :
    ∀ e ∈ f.elements, Columnar view looks values frames e :=
  Feature.forall_elements (fun _ => children) f hf

/-- An element inside such a feature is a column of a table. -/
theorem column {f e : Feature} (hf : Columnar view looks values frames f) (he : e ∈ f.elements) :
    ∃ t n k, e = .element (.table t) n k := by
  have element := Feature.isElement_of_mem_elements f he
  cases e with
  | element s n k =>
    obtain ⟨t, rfl⟩ := (hf.elements _ he).plain.1
    exact ⟨t, n, k, rfl⟩
  | _ => cases element

/-- Keys tell the kinds of such features. -/
theorem kind_eq {f g : Feature} (hf : Columnar view looks values frames f)
    (hg : Columnar view looks values frames g) (same : f.canonical = g.canonical) :
    f.kind = g.kind := by
  refine Feature.kind_eq_of_elements (fun d hd e he key => ?_) same
  obtain ⟨t, n, k, rfl⟩ := hf.column hd
  obtain ⟨u, m, l, rfl⟩ := hg.column he
  have own := hf.elements _ hd
  have other := hg.elements _ he
  exact Feature.TableColumn.kind_eq ⟨⟨t, rfl⟩, own.built, own.free⟩
    ⟨⟨u, rfl⟩, other.built, other.free⟩ key

end Columnar

/-- Frames that differ in the signs of zeros at most are one frame where keys tell these. -/
theorem frame_eq : ∀ {fr fr' : Option Frame}, (∀ x ∈ fr, x = frames x.key) →
    (∀ x ∈ fr', x = frames x.key) → fr.map Frame.canonical = fr'.map Frame.canonical → fr = fr'
  | none, none, _, _, _ => rfl
  | none, some _, _, _, same => nomatch same
  | some _, none, _, _, same => nomatch same
  | some x, some y, hx, hy, same => by
    have key : x.key = y.key := by
      rw [← x.key_canonical, Option.some.inj same, y.key_canonical]
    rw [hx x rfl, hy y rfl, key]

/-! ### Recursion depends on keys -/

/-- What is provided for a feature depends on its key. -/
theorem lookup_congr (keyed : ∀ f, h.lookupFeature f = .ok (provided.get? f)) {f g : Feature}
    (same : f.canonical = g.canonical) :
    h.lookupFeature f = h.lookupFeature g := by
  rw [keyed, keyed]
  refine congrArg Except.ok (provided.get?_congr ?_)
  show f.key = g.key
  rw [← f.key_canonical, same, g.key_canonical]

mutual

/-- **Recursion gives the same for features with one key.** -/
theorem plainFeature_congr (keyed : ∀ f, h.lookupFeature f = .ok (provided.get? f))
    (sees : h.Sees view) : ∀ {f g : Feature}, Columnar view looks values frames f →
    Columnar view looks values frames g → f.canonical = g.canonical →
      plainFeature h f = plainFeature h g
  | .aliased f n, g, hf, hg, same => by
    cases g with
    | aliased g m =>
      obtain ⟨inner, rfl⟩ := Feature.aliased.inj same
      have ih := plainFeature_congr keyed sees (hf.children f (List.mem_singleton_self f))
        (hg.children g (List.mem_singleton_self g)) inner
      simp only [plainFeature, ih]
    | _ => simp [Feature.canonical] at same
  | .literal v k, g, hf, hg, same => by
    cases g with
    | literal w l =>
      have key : (Feature.literal v k).key = (Feature.literal w l).key := by
        rw [← Feature.key_canonical, same, Feature.key_canonical]
      obtain ⟨-, rfl⟩ := Feature.literal.inj same
      have value : v = w := by
        rw [show v = _ from hf.plain, show w = _ from hg.plain, key]
      rw [value]
    | _ => simp [Feature.canonical] at same
  | .element s n k, g, hf, hg, same => by
    cases g with
    | element u m l =>
      have provision := lookup_congr keyed same
      obtain ⟨origin, rfl, -⟩ := Feature.element.inj same
      obtain ⟨t, rfl⟩ := hf.plain.1
      obtain ⟨t', rfl⟩ := hg.plain.1
      -- The tables have the same fields, and their keys tell what is seen of them.
      have schemas : t.canonical = t'.canonical := Source.table.inj origin
      have fields : t.fields = t'.fields := by
        rw [← t.fields_canonical, schemas, t'.fields_canonical]
      have key : t.key = t'.key := by rw [← t.key_canonical, schemas, t'.key_canonical]
      have seen : view t = view t' := by
        rw [show view t = _ from hf.plain.2, show view t' = _ from hg.plain.2, key]
      simp only [plainFeature, provision, sees.origin t t' fields seen,
        fun x => sees.element x t t' n fields seen]
    | _ => simp [Feature.canonical] at same
  | .expression op args t, g, hf, hg, same => by
    cases g with
    | expression op' args' t' =>
      have provision := lookup_congr keyed same
      have kind := hf.kind_eq hg same
      obtain ⟨rfl, parts, rfl⟩ := Feature.expression.inj same
      have ih : plainFeatures h args = plainFeatures h args' :=
        plainFeatures_congr keyed sees hf.children hg.children parts
      simp only [plainFeature, provision, kind, ih]
    | _ => simp [Feature.canonical] at same
  | .window fn ps os fr, g, hf, hg, same => by
    cases g with
    | window gn qs us fr' =>
      have provision := lookup_congr keyed same
      obtain ⟨inner, partition, ordering, bounds⟩ := Feature.window.inj same
      obtain rfl : fr = fr' := frame_eq hf.plain.1 hg.plain.1 bounds
      have hfn := plainFeature_congr keyed sees (hf.children fn (by simp [Feature.children]))
        (hg.children gn (by simp [Feature.children])) inner
      have hps := plainFeatures_congr keyed sees
        (fun p hp => hf.children p (by simp [Feature.children, hp]))
        (fun p hp => hg.children p (by simp [Feature.children, hp])) partition
      have hos := plainTerms_congr keyed sees
        (fun o ho => hf.children o.feature (by simpa [Feature.children] using .inr (.inr ⟨o, ho, rfl⟩)))
        (fun o ho => hg.children o.feature (by simpa [Feature.children] using .inr (.inr ⟨o, ho, rfl⟩)))
        ordering
      simp only [plainFeature, provision, hfn, hps, hos]
    | _ => simp [Feature.canonical] at same

theorem plainFeatures_congr (keyed : ∀ f, h.lookupFeature f = .ok (provided.get? f))
    (sees : h.Sees view) : ∀ {fs gs : List Feature},
    (∀ f ∈ fs, Columnar view looks values frames f) →
    (∀ g ∈ gs, Columnar view looks values frames g) →
      canonicalFeatures fs = canonicalFeatures gs → plainFeatures h fs = plainFeatures h gs
  | [], [], _, _, _ => rfl
  | [], _ :: _, _, _, same => nomatch same
  | _ :: _, [], _, _, same => nomatch same
  | f :: r, g :: q, hf, hg, same => by
    obtain ⟨first, rest⟩ := List.cons.inj same
    obtain ⟨hf, hr⟩ := List.forall_mem_cons.1 hf
    obtain ⟨hg, hq⟩ := List.forall_mem_cons.1 hg
    simp only [plainFeatures, plainFeature_congr keyed sees hf hg first,
      plainFeatures_congr keyed sees hr hq rest]

theorem plainTerms_congr (keyed : ∀ f, h.lookupFeature f = .ok (provided.get? f))
    (sees : h.Sees view) : ∀ {os us : List OrderTerm},
    (∀ o ∈ os, Columnar view looks values frames o.feature) →
    (∀ u ∈ us, Columnar view looks values frames u.feature) →
      canonicalTerms os = canonicalTerms us → plainTerms h os = plainTerms h us
  | [], [], _, _, _ => rfl
  | [], _ :: _, _, _, same => nomatch same
  | _ :: _, [], _, _, same => nomatch same
  | .by f d :: r, .by g e :: q, hf, hg, same => by
    obtain ⟨first, rest⟩ := List.cons.inj same
    obtain ⟨inner, rfl⟩ := OrderTerm.by.inj first
    obtain ⟨hf, hr⟩ := List.forall_mem_cons.1 hf
    obtain ⟨hg, hq⟩ := List.forall_mem_cons.1 hg
    have ih : plainFeature h f = plainFeature h g := plainFeature_congr keyed sees hf hg inner
    simp only [plainTerms, ih, plainTerms_congr keyed sees hr hq rest]

end

/-! ### Translation mirrors recursion -/

variable (view looks values frames h) in
/-- A state in which nothing was visited yet, and all that is remembered is what recursion gives. -/
structure Sound (st : State S F) : Prop where
  origins : st.current.origins = .empty
  memo    : ∀ k x, Remembers st.memo k x →
    ∃ g, Columnar view looks values frames g ∧ g.key = k ∧ plainFeature h g = .ok x

variable (view looks values frames h) in
/-- On sound states the computation ends like the recursion. If that gives a result, the computation
gives `result` of it and has `symbols` of it on top of the stack, in a sound state. -/
def Mirrors (act : Machine S F α) (r : Except Fault β) (result : β → α)
    (symbols : β → List (Symbol S F)) : Prop :=
  ∀ st, Sound view looks values frames h st → match r with
    | .ok b    => ∃ st', eval act st = (.ok (result b), st') ∧ Sound view looks values frames h st' ∧
      st'.current.symbols = symbols b ++ st.current.symbols
    | .error e => ∃ st', eval act st = (.error e, st')

variable (view looks values frames h) in
/-- The computation gives what the recursion gives. -/
abbrev Yields (act : Machine S F α) (r : Except Fault α) : Prop :=
  Mirrors view looks values frames h act r id fun _ => []

variable (view looks values frames h) in
/-- The computation leaves the symbol on the stack that the recursion gives. -/
abbrev Pushes (act : Machine S F Unit) (r : Except Fault F) : Prop :=
  Mirrors view looks values frames h act r (fun _ => ()) fun x => [.feature x]

/-- Computations one after the other mirror recursions one after the other. -/
theorem Yields.bind {δ : Type} {act : Machine S F α} {r : Except Fault α} {k : α → Machine S F β}
    {r' : α → Except Fault δ} {result : δ → β} {symbols : δ → List (Symbol S F)}
    (first : Yields view looks values frames h act r)
    (next : ∀ a, Mirrors view looks values frames h (k a) (r' a) result symbols) :
    Mirrors view looks values frames h (act >>= k) (r >>= r') result symbols := by
  intro st sound
  have ran := first st sound
  rw [eval_bind]
  cases r with
  | error e =>
    obtain ⟨st', ran⟩ := ran
    exact ⟨st', by rw [ran]; rfl⟩
  | ok a =>
    obtain ⟨st', ran, sound', stack⟩ := ran
    have stack : st'.current.symbols = st.current.symbols := stack
    rw [ran]
    show match r' a with
      | .ok b => ∃ st'', eval (k a) st' = (.ok (result b), st'') ∧ _ ∧
        st''.current.symbols = symbols b ++ st.current.symbols
      | .error e => ∃ st'', eval (k a) st' = (.error e, st'')
    rw [← stack]
    exact next a st' sound'

theorem yields_pure (a : α) : Yields view looks values frames h (pure a) (.ok a) :=
  fun st sound => ⟨st, rfl, sound, rfl⟩

theorem yields_ask (answer : ExceptT Fault Id α) :
    Yields view looks values frames h (ask answer) (answered answer) := by
  intro st sound
  have ran : eval (ask answer : Machine S F α) st = (answered answer, st) := rfl
  rw [ran]
  cases answered answer with
  | error e => exact ⟨st, rfl⟩
  | ok a => exact ⟨st, rfl, sound, rfl⟩

theorem pushes_push (x : F) : Pushes view looks values frames h (push (.feature x)) (.ok x) :=
  fun _ sound => ⟨_, rfl, ⟨sound.origins, sound.memo⟩, rfl⟩

theorem pushes_ask (answer : ExceptT Fault Id F) :
    Pushes view looks values frames h (do push (.feature (← ask answer))) (answered answer) := by
  have asked : Yields view looks values frames h (ask answer) (answered answer) := yields_ask answer
  have both := asked.bind pushes_push
  rwa [show answered answer >>= Except.ok = answered answer from bind_pure _] at both

/-- What was left for a feature is replaced by what is provided for it. -/
theorem pushes_replaced (x : F) (f : Feature) :
    Pushes view looks values frames h (do push (.feature x); replaceFeature h f)
      (do return (← answered (h.lookupFeature f)).getD x) := by
  intro st sound
  show match answered (h.lookupFeature f) >>= fun y => Except.ok (y.getD x) with
    | .ok _    => ∃ st', eval _ st = _ ∧ _
    | .error _ => ∃ st', eval _ st = _
  have looked : (ask (h.lookupFeature f) : Machine S F (Option F))
      = fun st => (answered (h.lookupFeature f), st) := rfl
  unfold replaceFeature
  rw [looked]
  cases answered (h.lookupFeature f) with
  | error e => exact ⟨_, rfl⟩
  | ok provided =>
    cases provided with
    | none => exact ⟨_, rfl, ⟨sound.origins, sound.memo⟩, rfl⟩
    | some y => exact ⟨_, rfl, ⟨sound.origins, sound.memo⟩, rfl⟩

theorem eval_takeFeature {st : State S F} {x : F} {rest : List (Symbol S F)}
    (top : st.current.symbols = .feature x :: rest) :
    eval takeFeature st = (.ok x, { st with current := { st.current with symbols := rest } }) := by
  obtain ⟨⟨symbols, tables, origins⟩, outer, memo, scans, notes⟩ := st
  obtain rfl : symbols = _ := top
  rfl

/-- A state stays sound when the symbol of a feature is remembered. -/
theorem Sound.put {st : State S F} (sound : Sound view looks values frames h st) {f : Feature}
    (hf : Columnar view looks values frames f) {x : F} (gives : plainFeature h f = .ok x) (k : String)
    (y : F) (hk : Remembers (Assoc.put (· == ·) f.key x st.memo) k y) :
    ∃ g, Columnar view looks values frames g ∧ g.key = k ∧ plainFeature h g = .ok y := by
  by_cases own : k = f.key
  · subst own
    obtain rfl : x = y := by
      rw [Remembers, Assoc.find?_put_self] at hk
      exact Option.some.inj hk
    exact ⟨f, hf, rfl, gives⟩
  · rw [Remembers, Assoc.find?_put_of_ne _ _ own] at hk
    exact sound.memo k y hk

/-- **What is remembered under the key of a feature, or else translated, is what recursion gives.** -/
theorem yields_remembered (keyed : ∀ f, h.lookupFeature f = .ok (provided.get? f)) (sees : h.Sees view)
    {f : Feature} (hf : Columnar view looks values frames f)
    (translated : Pushes view looks values frames h (translateFeature h f) (plainFeature h f)) :
    Yields view looks values frames h (remembered f.key (translateFeature h f)) (plainFeature h f) := by
  intro st sound
  have ran := translated st sound
  unfold remembered
  simp only [eval_bind, eval_get, andThen_ok]
  cases known : Assoc.find? (f.key == ·) st.memo with
  | some x =>
    -- The symbol was made for a feature with the same key.
    obtain ⟨g, hg, key, gives⟩ := sound.memo _ _ known
    have same : plainFeature h f = .ok x := by
      rw [← gives]
      exact plainFeature_congr keyed sees hf hg (Feature.canonical_eq_of_key hf.free hg.free key.symm)
    rw [same]
    exact ⟨st, rfl, sound, rfl⟩
  | none =>
    cases gives : plainFeature h f with
    | error e =>
      rw [gives] at ran
      obtain ⟨st', ran⟩ := ran
      exact ⟨st', by simp only [eval_bind, ran, andThen_error]⟩
    | ok x =>
      rw [gives] at ran
      obtain ⟨st', ran, sound', stack⟩ := ran
      have taken := eval_takeFeature stack
      refine ⟨{ st' with
          current := { st'.current with symbols := st.current.symbols }
          memo := Assoc.put (· == ·) f.key x st'.memo },
        ?_, ⟨sound'.origins, sound'.put hf gives⟩, rfl⟩
      simp only [eval_bind, ran, taken, andThen_ok, eval_modify, eval_pure]
      rfl

/-- An element is what is provided for it, or else what is made of the symbol of its table. -/
theorem translateElement_pushes (s : Source) (n : String) (k : Kind) :
    Pushes view looks values frames h (translateElement h s n k) (plainFeature h (.element s n k)) := by
  have origin : Yields view looks values frames h (originSymbol h s)
      (answered (h.origin .empty s)) := by
    intro st sound
    have asked := yields_ask (h.origin .empty s) st sound
    rwa [show eval (originSymbol h s) st = eval (ask (h.origin st.current.origins s)) st from rfl,
      sound.origins]
  unfold translateElement plainFeature
  refine (yields_ask _).bind fun provided => ?_
  cases provided with
  | some x => exact pushes_push x
  | none => exact origin.bind fun x => pushes_ask _

mutual

/-- **A translation leaves the symbol that recursion gives**, or ends in the fault that it ends in. -/
theorem translateFeature_pushes (keyed : ∀ f, h.lookupFeature f = .ok (provided.get? f))
    (sees : h.Sees view) : ∀ {f : Feature}, Columnar view looks values frames f →
      Pushes view looks values frames h (translateFeature h f) (plainFeature h f)
  | .aliased f n, hf => by
    have inner := hf.children f (List.mem_singleton_self f)
    have part := yields_remembered keyed sees inner (translateFeature_pushes keyed sees inner)
    exact part.bind fun x => pushes_ask _
  | .literal v k, _ => pushes_ask _
  | .element s n k, _ => translateElement_pushes s n k
  | .expression op args t, hf => by
    have parts := symbolsOf_yields keyed sees hf.children
    exact parts.bind fun xs => (yields_ask _).bind fun y => pushes_replaced y _
  | .window fn ps os fr, hf => by
    have inner := hf.children fn (by simp [Feature.children])
    have part := yields_remembered keyed sees inner (translateFeature_pushes keyed sees inner)
    have hps : ∀ p ∈ ps, Columnar view looks values frames p :=
      fun p hp => hf.children p (by simp [Feature.children, hp])
    have hos : ∀ o ∈ os, Columnar view looks values frames o.feature := fun o ho =>
      hf.children o.feature (by simpa [Feature.children] using .inr (.inr ⟨o, ho, rfl⟩))
    have partition := symbolsOf_yields keyed sees hps
    have ordering := symbolsOfTerms_yields keyed sees hos
    exact part.bind fun x => partition.bind fun xs => ordering.bind fun ys =>
      (yields_ask _).bind fun z => pushes_replaced z _

theorem symbolsOf_yields (keyed : ∀ f, h.lookupFeature f = .ok (provided.get? f)) (sees : h.Sees view) :
    ∀ {fs : List Feature}, (∀ f ∈ fs, Columnar view looks values frames f) →
      Yields view looks values frames h (symbolsOf h fs) (plainFeatures h fs)
  | [], _ => yields_pure []
  | f :: r, hfs => by
    obtain ⟨hf, hr⟩ := List.forall_mem_cons.1 hfs
    have first := yields_remembered keyed sees hf (translateFeature_pushes keyed sees hf)
    exact first.bind fun x => (symbolsOf_yields keyed sees hr).bind fun xs => yields_pure (x :: xs)

theorem symbolsOfTerms_yields (keyed : ∀ f, h.lookupFeature f = .ok (provided.get? f))
    (sees : h.Sees view) : ∀ {os : List OrderTerm},
      (∀ o ∈ os, Columnar view looks values frames o.feature) →
        Yields view looks values frames h (symbolsOfTerms h os) (plainTerms h os)
  | [], _ => yields_pure []
  | .by f d :: r, hos => by
    obtain ⟨hf, hr⟩ := List.forall_mem_cons.1 hos
    have first := yields_remembered keyed sees hf (translateFeature_pushes keyed sees hf)
    exact first.bind fun x => (symbolsOfTerms_yields keyed sees hr).bind fun xs =>
      yields_pure ((x, d) :: xs)

end

/-- **A fresh translation of a feature is the recursion over it**, with the same symbol or the same
first fault. -/
theorem finished_plain (keyed : ∀ f, h.lookupFeature f = .ok (provided.get? f)) (sees : h.Sees view)
    {f : Feature} (built : f.Built) (free : f.Obeys .structFree)
    (plain : f.Obeys (.columnar view looks values frames)) :
    (eval (finishFeature h f) .fresh).1 = plainFeature h f := by
  have hf : Columnar view looks values frames f := ⟨built, built.distinct free, plain⟩
  have sound : Sound view looks values frames h (.fresh : State S F) := ⟨rfl, nofun⟩
  have ran := translateFeature_pushes keyed sees hf .fresh sound
  unfold finishFeature
  rw [eval_bind]
  cases gives : plainFeature h f with
  | error e =>
    rw [gives] at ran
    obtain ⟨st, ran⟩ := ran
    rw [ran]
    rfl
  | ok x =>
    rw [gives] at ran
    obtain ⟨⟨⟨symbols, tables, origins⟩, outer, memo, scans, notes⟩, ran, -, stack⟩ := ran
    obtain rfl : symbols = [.feature x] := stack
    rw [ran]
    rfl

end

/-- Columns of tables that differ in the attribute of their field only. -/
theorem finished_plain_of_attributes :
    let school (attr : String) : Source :=
      .table ⟨"school", [(attr, ⟨.primitive .integer, "id"⟩)]⟩
    let id (attr : String) : Feature := .element (school attr) "id" (.primitive .integer)
    let both : Feature := .expression .eq [id "id", id "sid"] none
    let hooks := (Evaluation.backend .empty .empty).hooks
    (id "id").key = (id "sid").key ∧
      (eval (finishFeature hooks both) .fresh).1 = plainFeature hooks both := by
  intro school id both hooks
  have hid : ∀ a, (school a).get "id" = .ok (id a) → (id a).Built := fun _ h =>
    .element (.of_distinct rfl) h
  have built : both.Built := built_pair (hid _ rfl) (hid _ rfl) rfl
  have fields : ∀ a, (school a).Obeys .structFree := fun _ => structFree_table rfl
  have sees : hooks.Sees Schema.name := by
    refine Backend.sees_names (fun t u x name => ?_) fun x t u n name => ?_
    · simp only [Evaluation.backend, name]
    · have label : (Source.table t).label = (Source.table u).label := name
      simp only [Evaluation.backend, Evaluation.FeaturePlan.element, label]
  have keyed : ∀ f, hooks.lookupFeature f = .ok ((KeyedMap.empty : KeyedMap Feature _).get? f) :=
    fun _ => rfl
  have plain : both.Obeys (.columnar Schema.name (fun _ => "school") (fun _ => .null)
      fun _ => ⟨.rows, .current, .current⟩) :=
    ⟨trivial, ⟨⟨_, rfl⟩, rfl⟩, ⟨⟨_, rfl⟩, rfl⟩, trivial⟩
  exact ⟨rfl, finished_plain keyed sees built
    ⟨nofun, ⟨trivial, fields _⟩, ⟨trivial, fields _⟩, trivial⟩ plain⟩

/-- A backend whose symbols show the signs of numbers, in literals and where frames start, and the
attributes of tables. -/
def showing : Backend Unit (List String) where
  sources    := .empty
  features   := .empty
  table _ _  := .ok ()
  scan _ _ _ := ()
  reference _ _ := ((), ())
  join _ _ _ _ := ()
  set _ _ _  := ()
  query _ _ _ _ _ _ _ := ()
  element _ s _ :=
    match s with
    | .table t => t.entries.map (·.1)
    | _        => []
  aliased x _ := x
  literal v _ :=
    match v with
    | .number n => .ok [if n.negative then "-" else "+"]
    | _         => .ok []
  expression _ xs _ := .ok xs.flatten
  window x _ _ fr :=
    match fr with
    | some ⟨_, .offset n, _⟩ => .ok (x ++ [if n.negative then "-" else "+"])
    | _                      => .ok x

/-- **What keys do not tell is shared**: the sign of a zero, be it in a literal or in a frame, and the
attribute of a field are those of the first feature with the key. -/
theorem symbols_shared :
    let zero (negative : Bool) : Number :=
      .finite negative ⟨0, ⟨0, 0, by decide, rfl⟩, by decide +kernel⟩
    let amount (negative : Bool) : Feature :=
      .literal (.number (zero negative)) (.primitive .float)
    let count (negative : Bool) : Feature := .window (.expression .count [] none) [] []
      (some ⟨.rows, .offset (zero negative), .unbounded⟩)
    let id (attr : String) : Feature :=
      .element (.table ⟨"school", [(attr, ⟨.primitive .integer, "id"⟩)]⟩) "id"
        (.primitive .integer)
    let sum (f g : Feature) : Feature := .expression .add [f, g] none
    let shown (f : Feature) : Option (List String) :=
      (eval (finishFeature showing.hooks f) .fresh).1.toOption
    let plain (f : Feature) : Option (List String) := (plainFeature showing.hooks f).toOption
    ((sum (amount true) (amount false)).Built ∧
      shown (sum (amount true) (amount false)) = some ["-", "-"] ∧
      plain (sum (amount true) (amount false)) = some ["-", "+"]) ∧
    ((sum (count true) (count false)).Built ∧
      shown (sum (count true) (count false)) = some ["-", "-"] ∧
      plain (sum (count true) (count false)) = some ["-", "+"]) ∧
    ((sum (id "id") (id "sid")).Built ∧
      shown (sum (id "id") (id "sid")) = some ["id", "id"] ∧
      plain (sum (id "id") (id "sid")) = some ["id", "sid"]) := by
  intro zero amount count id sum shown plain
  have hamount : ∀ negative, (amount negative).Built := fun negative =>
    .literal
      (show Feature.literalOf (.number (zero negative)) (some (.primitive .float)) = .ok _ from rfl)
  have ordered : ∀ negative, (Number.infinite false).lt (zero negative) = false := fun negative => by
    cases negative <;> decide +kernel
  have hcount : ∀ negative, (count negative).Built := fun negative =>
    @Feature.Built.window _ [] [] (some ⟨.rows, .offset (zero negative), .unbounded⟩) _
      built_count nofun nofun (by
      simp only [Feature.windowOf, OrderTerm.make, Frame.check, FrameEnd.place, ordered]
      rfl)
  have hid : ∀ attr, (Source.table ⟨"school", [(attr, ⟨.primitive .integer, "id"⟩)]⟩).get "id"
      = .ok (id attr) → (id attr).Built := fun _ h => .element (.of_distinct rfl) h
  exact ⟨⟨built_pair (hamount _) (hamount _) rfl, by decide +kernel, by decide +kernel⟩,
    ⟨built_pair (hcount _) (hcount _) rfl, by decide +kernel, by decide +kernel⟩,
    ⟨built_pair (hid _ rfl) (hid _ rfl) rfl, by decide +kernel, by decide +kernel⟩⟩

end Translation

end QueryAlgebra
