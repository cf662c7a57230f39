import QueryAlgebra.Proofs.Translation.Invariant

/-!
# Backends that are images of one another

If the symbols of one backend turn into those of another one so that all nodes are respected, so do
whole translations: they end in the same fault, or in the image of the same symbol.

* `Images`: one backend is the image of another one, as far as literals of one sort are concerned.
* `Rules.literals`: all literals of a tree are of that sort.
* `Follows`: a computation on benches does what another one does, in terms of images.
* `directFeature_follows`, `directSource_follows`: translations follow one another.
* `Images.compiled`: so do whole translations of translators that have done nothing yet.
-/

namespace QueryAlgebra

/-! ### Values of maps -/

theorem Assoc.find?_map {γ δ : Type} (g : γ → δ) (p : String → Bool) :
    ∀ es : List (String × γ),
      Assoc.find? p (es.map fun e => (e.1, g e.2)) = (Assoc.find? p es).map g
  | [] => rfl
  | (k, v) :: r => by
    simp only [List.map_cons, Assoc.find?, Assoc.find?_map g p r]
    split <;> rfl

theorem Assoc.put_map {γ δ : Type} (g : γ → δ) (k : String) (v : γ) :
    ∀ es : List (String × γ), Assoc.put (· == ·) k (g v) (es.map fun e => (e.1, g e.2))
      = (Assoc.put (· == ·) k v es).map fun e => (e.1, g e.2)
  | [] => rfl
  | (l, w) :: r => by
    simp only [List.map_cons, Assoc.put, Assoc.put_map g k v r]
    split <;> rfl

namespace KeyedMap

variable {α γ δ : Type} [Keyed α]

/-- The map with all values changed. -/
def mapValues (g : γ → δ) (m : KeyedMap α γ) : KeyedMap α δ :=
  ⟨m.entries.map fun e => (e.1, e.2.1, g e.2.2)⟩

omit [Keyed α] in
theorem entry?_mapValues (g : γ → δ) (m : KeyedMap α γ) (k : String) :
    KeyedMap.entry? (m.mapValues g) k = (KeyedMap.entry? m k).map fun e => (e.1, g e.2) :=
  Assoc.find?_map (fun e : α × γ => (e.1, g e.2)) _ m.entries

theorem get?_mapValues (g : γ → δ) (m : KeyedMap α γ) (a : α) :
    (m.mapValues g).get? a = (m.get? a).map g := by
  simp only [get?, entry?_mapValues, Option.map_map]
  rfl

theorem set_mapValues (g : γ → δ) (m : KeyedMap α γ) (a : α) (v : γ) :
    (m.mapValues g).set a (g v) = (m.set a v).mapValues g := by
  have node : (KeyedMap.entry? (m.mapValues g) (Keyed.key a)).map (·.1)
      = (KeyedMap.entry? m (Keyed.key a)).map (·.1) := by
    rw [entry?_mapValues, Option.map_map]
    rfl
  simp only [set, node]
  exact congrArg KeyedMap.mk (Assoc.put_map (fun e : α × γ => (e.1, g e.2)) _
    (((m.entry? (Keyed.key a)).map (·.1)).getD a, v) m.entries)

end KeyedMap

/-- All literals of a tree are of a sort. -/
def Rules.literals (L : Value → Kind → Prop) : Rules where
  feature
    | .literal v k => L v k
    | _            => True
  source _ := True

namespace Translation

variable {S F S' F' α β : Type}

/-- One backend is the image of another one: what it makes of images is the image of what the other
one makes, and it refuses what the other one refuses, if literals are of the sort `L`. -/
structure Images (L : Value → Kind → Prop) (b : Backend S F) (b' : Backend S' F') (φ : S → S')
    (ψ : F → F') : Prop where
  sources    : ∀ s, b'.sources.get? s = (b.sources.get? s).map φ
  features   : ∀ f, b'.features.get? f = (b.features.get? f).map ψ
  table      : ∀ t p, b'.table t (Option.map φ p) = (b.table t p).map φ
  scan       : ∀ x xs y, b'.scan (φ x) (xs.map ψ) (Option.map ψ y) = φ (b.scan x xs y)
  reference  : ∀ x n, b'.reference (φ x) n = ((b.reference x n).map φ φ)
  join       : ∀ x y z k, b'.join (φ x) (φ y) (Option.map ψ z) k = φ (b.join x y z k)
  set        : ∀ x y k, b'.set (φ x) (φ y) k = φ (b.set x y k)
  query      : ∀ x xs y ys z zs rows, b'.query (φ x) (xs.map ψ) (Option.map ψ y) (ys.map ψ)
    (Option.map ψ z) (zs.map fun o => (ψ o.1, o.2)) rows = φ (b.query x xs y ys z zs rows)
  element    : ∀ x s n, b'.element (φ x) s n = ψ (b.element x s n)
  aliased    : ∀ x n, b'.aliased (ψ x) n = ψ (b.aliased x n)
  literal    : ∀ v k, L v k → b'.literal v k = (b.literal v k).map ψ
  expression : ∀ op xs k, b'.expression op (xs.map ψ) k = (b.expression op xs k).map ψ
  window     : ∀ x xs ys fr, b'.window (ψ x) (xs.map ψ) (ys.map fun o => (ψ o.1, o.2)) fr
    = (b.window x xs ys fr).map ψ

/-- The bench with images in place of all symbols. -/
def Bench.map (φ : S → S') (ψ : F → F') (w : Bench S F) : Bench S' F' where
  tables  := w.tables
  origins := w.origins.mapValues φ
  memo    := w.memo.map fun e => (e.1, ψ e.2)
  scans   := w.scans.map fun x => ⟨φ x.origin, x.fields.map ψ, x.predicate.map ψ⟩
  notes   := w.notes

theorem inherited_literals (L : Value → Kind → Prop) : Inherited (Feature.Obeys (.literals L)) where
  down _ h := h.children
  pair _ _ _ _ _ _ hf hg := ⟨trivial, hf, hg, trivial⟩

/-- The computation keeps `tables` sound, and on the image of a bench the other one gives and leaves
the image of what it gives and leaves. -/
def Follows (L : Value → Kind → Prop) (φ : S → S') (ψ : F → F') (g : α → β) (d : Direct S F α)
    (d' : Direct S' F' β) : Prop :=
  ∀ w : Bench S F, w.tables.Sound (Feature.Obeys (.literals L)) →
    eval d' (w.map φ ψ) = ((eval d w).1.map g, (eval d w).2.map φ ψ) ∧
      (eval d w).2.tables.Sound (Feature.Obeys (.literals L))

namespace Follows

variable {L : Value → Kind → Prop} {φ : S → S'} {ψ : F → F'} {γ δ : Type} {g : α → β}

theorem pure (g : α → β) (a : α) :
    Follows L φ ψ g (Pure.pure a : Direct S F α) (Pure.pure (g a)) := fun _ hw => ⟨rfl, hw⟩

theorem bind {h : γ → δ} {d : Direct S F α} {d' : Direct S' F' β} {k : α → Direct S F γ}
    {k' : β → Direct S' F' δ} (hd : Follows L φ ψ g d d')
    (hk : ∀ a, Follows L φ ψ h (k a) (k' (g a))) : Follows L φ ψ h (d >>= k) (d' >>= k') := by
  intro w hw
  obtain ⟨same, sound⟩ := hd w hw
  rw [eval_bind, eval_bind, same]
  rcases heval : eval d w with ⟨_ | a, v⟩ <;> rw [heval] at sound
  · exact ⟨rfl, sound⟩
  · exact hk a v sound

theorem settle {r : Except Fault α} {r' : Except Fault β} (h : r' = r.map g) :
    Follows L φ ψ g (Direct.settle r : Direct S F α) (Direct.settle r') := by
  subst h
  intro w hw
  cases r <;> exact ⟨rfl, hw⟩

/-- A change of the bench that respects images, and leaves what the scope reads as it is. -/
theorem modified {c : Bench S F → Bench S F} {c' : Bench S' F' → Bench S' F'}
    (h : ∀ w, c' (w.map φ ψ) = (c w).map φ ψ) (tables : ∀ w, (c w).tables = w.tables) :
    Follows L φ ψ id (modify c : Direct S F Unit) (modify c') := fun w hw => by
  simp only [eval_modify, h w]
  exact ⟨rfl, (tables w).symm ▸ hw⟩

theorem modifyTables {change : Readings → Readings}
    (h : ∀ ts : Readings, ts.Sound (Feature.Obeys (.literals L)) →
      (change ts).Sound (Feature.Obeys (.literals L))) :
    Follows L φ ψ id (Direct.modifyTables change : Direct S F Unit) (Direct.modifyTables change) :=
  fun w hw => ⟨rfl, h w.tables hw⟩

theorem setOrigin (s : Source) (x : S) :
    Follows L φ ψ id (Direct.setOrigin s x : Direct S F Unit) (Direct.setOrigin s (φ x)) :=
  modified (fun w => by simp only [Bench.map, KeyedMap.set_mapValues]) fun _ => rfl

/-- A symbol is remembered wherever its image is. -/
theorem recalled {key : String} {d : Direct S F F} {d' : Direct S' F' F'}
    (hd : Follows L φ ψ ψ d d') : Follows L φ ψ ψ (Direct.recall key d) (Direct.recall key d') := by
  intro w hw
  unfold Direct.recall
  simp only [eval_bind, eval_get, andThen_ok, Bench.map, Assoc.find?_map]
  cases Assoc.find? (key == ·) w.memo with
  | some x => exact ⟨rfl, hw⟩
  | none =>
    refine (hd.bind (h := ψ) fun x => Follows.bind (modified (fun v => ?_) fun v => ?_) fun _ =>
      .pure ψ x) w hw
    · simp only [Bench.map, Assoc.put_map]
    · rfl

theorem scope {d : Direct S F α} {d' : Direct S' F' β}
    (hd : ∀ w : Bench S F, eval d' (w.inner.map φ ψ)
      = ((eval d w.inner).1.map g, (eval d w.inner).2.map φ ψ)) :
    Follows L φ ψ g d.scope d'.scope := by
  intro w hw
  refine ⟨?_, hw⟩
  show ((eval d' (w.map φ ψ).inner).1, (eval d' (w.map φ ψ).inner).2.leave (w.map φ ψ)) = _
  have inner : (w.map φ ψ).inner = w.inner.map φ ψ := rfl
  rw [inner, hd w]
  rfl

end Follows

variable {L : Value → Kind → Prop} {b : Backend S F} {b' : Backend S' F'} {φ : S → S'} {ψ : F → F'}

theorem directReplaced_follows (hb : Images L b b' φ ψ) (f : Feature) (x : F) :
    Follows L φ ψ ψ (directReplaced b f x) (directReplaced b' f (ψ x)) := by
  unfold directReplaced
  rw [hb.features]
  cases b.features.get? f with
  | none => exact .pure ψ x
  | some y => exact Follows.bind (.modified (fun _ => rfl) fun _ => rfl) fun _ => .pure ψ y

theorem directReplacedSource_follows (hb : Images L b b' φ ψ) (s : Source) (x : S) :
    Follows L φ ψ φ (directReplacedSource b s x) (directReplacedSource b' s (φ x)) := by
  unfold directReplacedSource
  rw [hb.sources]
  cases b.sources.get? s with
  | none => exact .pure φ x
  | some y => exact Follows.bind (.modified (fun _ => rfl) fun _ => rfl) fun _ => .pure φ y

theorem directOrigin_follows (hb : Images L b b' φ ψ) (s : Source) :
    Follows L φ ψ φ (directOrigin b s) (directOrigin b' s) := by
  intro w hw
  simp only [directOrigin, eval_bind, eval_get, andThen_ok, Bench.map, KeyedMap.get?_mapValues]
  cases w.origins.get? s with
  | some x => exact ⟨rfl, hw⟩
  | none =>
    cases s with
    | table t => exact Follows.settle (by rw [hb.sources, hb.table]) w hw
    | _ =>
      dsimp only [Option.map_none]
      rw [hb.sources]
      cases b.sources.get? _ <;> exact ⟨rfl, hw⟩

theorem directElement_follows (hb : Images L b b' φ ψ) (s : Source) (n : String) (k : Kind) :
    Follows L φ ψ ψ (directElement b s n k) (directElement b' s n k) := by
  unfold directElement
  rw [hb.features]
  cases b.features.get? (.element s n k) with
  | some x => exact .pure ψ x
  | none =>
    refine (directOrigin_follows hb s).bind fun x => ?_
    rw [hb.element]
    exact .pure ψ _

mutual

/-- **Features are translated to images.** -/
theorem directFeature_follows (hb : Images L b b' φ ψ) : ∀ f : Feature, f.Obeys (.literals L) →
    Follows L φ ψ ψ (directFeature b f) (directFeature b' f)
  | .aliased f n, h => by
    simp only [directFeature]
    refine (directFeature_follows hb f h.2).recalled.bind fun x => ?_
    rw [hb.aliased]
    exact .pure ψ _
  | .literal v k, h => by
    simp only [directFeature]
    exact .settle (hb.literal v k h)
  | .element s n k, _ => by
    simp only [directFeature]
    exact directElement_follows hb s n k
  | .expression op args t, h => by
    simp only [directFeature]
    exact (directFeatures_follows hb args h.2).bind fun xs =>
      (Follows.settle (hb.expression op xs _)).bind fun y => directReplaced_follows hb _ y
  | .window fn ps os fr, h => by
    simp only [directFeature]
    exact (directFeature_follows hb fn h.2.1).recalled.bind fun x =>
      (directFeatures_follows hb ps h.2.2.1).bind fun xs =>
        (directTerms_follows hb os h.2.2.2).bind fun ys =>
          (Follows.settle (hb.window x xs ys fr)).bind fun z => directReplaced_follows hb _ z

theorem directFeatures_follows (hb : Images L b b' φ ψ) : ∀ fs : List Feature,
    featuresObey (.literals L) fs →
    Follows L φ ψ (List.map ψ) (directFeatures b fs) (directFeatures b' fs)
  | [], _ => .pure (List.map ψ) []
  | f :: r, h => by
    simp only [directFeatures]
    exact (directFeature_follows hb f h.1).recalled.bind fun x =>
      (directFeatures_follows hb r h.2).bind fun xs => .pure (List.map ψ) (x :: xs)

theorem directTerms_follows (hb : Images L b b' φ ψ) : ∀ os : List OrderTerm,
    termsObey (.literals L) os →
    Follows L φ ψ (List.map fun o => (ψ o.1, o.2)) (directTerms b os) (directTerms b' os)
  | [], _ => .pure (List.map fun o => (ψ o.1, o.2)) []
  | .by f d :: r, h => by
    simp only [directTerms]
    exact (directFeature_follows hb f h.1).recalled.bind fun x =>
      (directTerms_follows hb r h.2).bind fun ys =>
        .pure (List.map fun o => (ψ o.1, o.2)) ((x, d) :: ys)

end

theorem directOption_follows (hb : Images L b b' φ ψ) {o : Option Feature}
    (h : ∀ f ∈ o, f.Obeys (.literals L)) :
    Follows L φ ψ (Option.map ψ) (directOption b o) (directOption b' o) := by
  cases o with
  | none => exact .pure (Option.map ψ) none
  | some f =>
    exact (directFeature_follows hb f (h f rfl)).recalled.bind fun x => .pure (Option.map ψ) (some x)

theorem directTable_follows (hb : Images L b b' φ ψ) (t : Schema) :
    Follows L φ ψ φ (directTable b t) (directTable b' t) := by
  unfold directTable
  refine (Follows.settle (g := φ) (by rw [hb.sources, hb.table])).bind fun x => ?_
  -- What the scope reads has no symbols in it, so it is the same on the image of the bench.
  refine (Follows.setOrigin _ x).bind fun _ =>
    (Follows.modifyTables fun ts h => h.touch t).bind fun _ w hw => ?_
  have fields := featuresObey_iff.2 fun c hc => (Readings.All.fields hw t c hc).2
  refine ((directFeatures_follows hb (w.tables.reading t).fields fields).bind fun xs =>
    (directOption_follows hb ((inherited_literals L).predicate hw t)).bind fun y =>
    (Follows.modified (fun v => ?_) fun v => ?_).bind fun _ => ?_ : Follows L φ ψ φ _ _) w hw
  · simp only [Bench.map, List.map_append, List.map_cons, List.map_nil]
  · rfl
  · rw [hb.scan]
    exact .pure φ _

/-- **Sources are translated to images.** -/
theorem directSource_follows (hb : Images L b b' φ ψ) : ∀ s : Source, s.Obeys (.literals L) →
    Follows L φ ψ φ (directSource b s) (directSource b' s)
  | .table t, _ => by
    simp only [directSource]
    exact directTable_follows hb t
  | .reference s n, h => by
    simp only [directSource]
    refine (directSource_follows hb s h.2).bind fun x => ?_
    rw [hb.reference]
    exact (Follows.setOrigin _ _).bind fun _ => .pure φ _
  | .join l r k c, h => by
    obtain ⟨-, hl, hr, hc⟩ := h
    have hc := optionObeys_iff.1 hc
    have sides : Follows L φ ψ φ
        (do
          let left ← directSource b l
          let right ← directSource b r
          let condition ← directOption b c
          directReplacedSource b (.join l r k c) (b.join left right condition k))
        (do
          let left ← directSource b' l
          let right ← directSource b' r
          let condition ← directOption b' c
          directReplacedSource b' (.join l r k c) (b'.join left right condition k)) := by
      refine (directSource_follows hb l hl).bind fun x => (directSource_follows hb r hr).bind fun y =>
        (directOption_follows hb hc).bind fun z => ?_
      rw [hb.join]
      exact directReplacedSource_follows hb _ _
    cases c with
    | none => exact sides
    | some p =>
      exact (Follows.modifyTables fun ts h =>
        (inherited_literals L).filterBy (c := some p) h hc).bind fun _ => sides
  | .set l r k, h => by
    simp only [directSource]
    refine (directSource_follows hb l h.2.1).bind fun x =>
      (directSource_follows hb r h.2.2).bind fun y => ?_
    rw [hb.set]
    exact directReplacedSource_follows hb _ _
  | .query s sel pre grp post ord rows, h => by
    have outputs := Source.Obeys.features (Rules.offered_of_element fun _ _ _ => trivial) _ h
    have clauses := h.statement
    obtain ⟨-, hs, -, -, hgrp, -, hord⟩ := h
    have begun := (inherited_literals L).registerClauses outputs clauses.prefilter clauses.grouping
      clauses.postfilter clauses.ordering
    simp only [directSource]
    refine Follows.bind (g := φ) (Follows.scope fun w => ?_) fun x =>
      directReplacedSource_follows hb _ x
    refine (((directSource_follows hb s hs).bind fun x =>
      (directFeatures_follows hb _ (featuresObey_iff.2 outputs)).bind fun xs =>
      (directOption_follows hb clauses.prefilter).bind fun y => (directFeatures_follows hb grp hgrp).bind fun ys =>
      (directOption_follows hb clauses.postfilter).bind fun z => (directTerms_follows hb ord hord).bind fun zs => ?_ :
      Follows L φ ψ φ _ _) { w.inner with tables := registerClauses _ pre grp post ord .empty } begun).1
    rw [hb.query]
    exact .pure φ _

/-! ### Whole translations -/

/-- The symbol with its image in its place. -/
def Symbol.map (φ : S → S') (ψ : F → F') : Symbol S F → Symbol S' F'
  | .source x  => .source (φ x)
  | .feature x => .feature (ψ x)

/-- What a translator that has done nothing yet gives for a whole tree. -/
def Backend.compiled (b : Backend S F) (tree : Tree) : Except Fault (Option (Symbol S F)) :=
  ((Translator.ofBackend b).serve (.finish tree)).1

/-- **Translators that have done nothing yet** end a whole translation in the same fault, or with a
symbol and its image. -/
theorem Images.compiled (hb : Images L b b' φ ψ) {tree : Tree} (h : tree.Obeys (.literals L)) :
    b'.compiled tree = (b.compiled tree).map (Option.map (Symbol.map φ ψ)) := by
  have sound : (Bench.fresh : Bench S F).tables.Sound (Feature.Obeys (.literals L)) :=
    Readings.All.empty
  unfold Backend.compiled
  rw [Translator.serve_finish _ State.clean_fresh, Translator.serve_finish _ State.clean_fresh]
  show (eval (directFinish b' tree) (Bench.fresh.map φ ψ)).1.map some
    = ((eval (directFinish b tree) Bench.fresh).1.map some).map _
  cases tree with
  | source s =>
    obtain ⟨_, finished⟩ := eval_directFinish_source b s Bench.fresh
    obtain ⟨_, finished'⟩ := eval_directFinish_source b' s (Bench.fresh.map φ ψ)
    rw [finished, finished', (directSource_follows hb s h _ sound).1]
    cases (eval (directSource b s) Bench.fresh).1 <;> rfl
  | feature f =>
    rw [eval_directFinish_feature, eval_directFinish_feature,
      (directFeature_follows hb f h _ sound).1]
    cases (eval (directFeature b f) Bench.fresh).1 <;> rfl

end Translation

end QueryAlgebra
