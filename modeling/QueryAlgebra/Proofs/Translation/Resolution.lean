import QueryAlgebra.Proofs.Translation.Invariant

/-!
# Translations end well when all names are in sight

* `Rules.acceptedBy`: a backend refuses no node of a tree.
* `Translation.directSource_or_unknown`: then only the name of a source can be missing.
* `Translation.Backend.Provides`: what symbols are provided for.
* `Translation.Sees`: what a bench holds is what is in sight.
* `Translation.recall_settles`, `Translation.directSource_settles`: a tree that a backend accepts is
  translated exactly when it asks only for elements that are found; otherwise a source is unknown.
-/

namespace QueryAlgebra

/-- The backend refuses no node of the tree. -/
def Rules.acceptedBy {S F : Type} (b : Translation.Backend S F) : Rules where
  feature
    | .literal v k          => ∃ x, b.literal v k = .ok x
    | .expression op args t =>
      ∀ xs, ∃ x, b.expression op xs (Feature.expression op args t).kind = .ok x
    | .window _ _ _ fr      => ∀ x xs ys, ∃ z, b.window x xs ys fr = .ok z
    | _                     => True
  source _ := True

namespace Translation

variable {S F α β : Type}

/-- The keys of the sources and of the features that symbols are provided for. -/
structure Provided where
  sources  : List String
  features : List String

/-- Symbols are provided for these sources and features, and all tables can be addressed. -/
structure Backend.Provides (b : Backend S F) (g : Provided) : Prop where
  sources  : ∀ s : Source, (b.sources.get? s).isSome = true ↔ s.key ∈ g.sources
  features : ∀ f : Feature, (b.features.get? f).isSome = true ↔ f.key ∈ g.features
  table    : ∀ t, ∃ x, b.table t (b.sources.get? (.table t)) = .ok x

/-- Connectives are never refused. -/
def Backend.Connects (b : Backend S F) : Prop :=
  ∀ op ∈ connectives, ∀ xs kind, ∃ x, b.expression op xs kind = .ok x

/-- The feature is told by its key, and the backend accepts it. -/
def Sure (b : Backend S F) (f : Feature) : Prop := f.Obeys .distinct ∧ f.Obeys (.acceptedBy b)

theorem inherited_sure {b : Backend S F} (hb : b.Connects) : Inherited (Sure b) where
  down _ h c hc := ⟨h.1.children c hc, h.2.children c hc⟩
  pair op hop _ _ _ _ ha hb' :=
    ⟨⟨by simp [Rules.distinct, Rules.structFree], ha.1, hb'.1, trivial⟩,
      ⟨fun xs => hb op hop xs _, ha.2, hb'.2, trivial⟩⟩

/-! ### Missing names -/

namespace Backend.Provides

variable {b : Backend S F} {g : Provided} (hb : b.Provides g)
include hb

/-- A source has a symbol, or its name is missing. -/
theorem origin_or_unknown (o : KeyedMap Source S) (s : Source) :
    (∃ x, b.origin o s = .ok x) ∨ b.origin o s = .error (.unknownMapping s.text) := by
  unfold Backend.origin
  cases o.get? s with
  | some x => exact .inl ⟨x, rfl⟩
  | none =>
    cases s with
    | table t => exact .inl (hb.table t)
    | _ =>
      dsimp only
      cases b.sources.get? _ with
      | some x => exact .inl ⟨x, rfl⟩
      | none => exact .inr rfl

theorem elementSymbol_unknown {o : KeyedMap Source S} {s : Source} {n : String} {k : Kind}
    {e : Fault} (h : b.elementSymbol o s n k = .error e) : e = .unknownMapping s.text := by
  unfold Backend.elementSymbol at h
  split at h
  · cases h
  · rcases hb.origin_or_unknown o s with ⟨x, hx⟩ | hx
    · simp [hx, Except.map] at h
    · simpa [hx, Except.map] using h.symm

end Backend.Provides

/-- Only the names of sources can be missing when a backend refuses nothing. -/
def namesOnly (b : Backend S F) : Invariant S F where
  rules := .acceptedBy b
  memo _ := True
  origins _ := True
  source _ _ := True
  fault e := ∃ o : Source, e = .unknownMapping o.text

theorem namesOnly_lawful {b : Backend S F} {g : Provided} (hb : b.Provides g) (hc : b.Connects) :
    (namesOnly b).Lawful b where
  selected := Rules.selected_of_element fun _ _ _ => trivial
  connective op hop _ _ _ _ xs := hc op hop xs _
  nowhere := trivial
  put _ _ _ _ _ _ := trivial
  refused := by
    intro f m o e hf _ _ hgives
    generalize hr : Except.error e = r at hgives
    cases hgives with
    | aliased => cases hr
    | literal =>
      obtain ⟨x, hx⟩ := hf
      cases hr.trans hx
    | element => exact ⟨_, hb.elementSymbol_unknown hr.symm⟩
    | @expression op args t xs hxs =>
      obtain ⟨x, hx⟩ := hf.1 xs
      rw [hx] at hr
      cases hr
    | @window fn ps os fr x xs ys _ _ _ =>
      obtain ⟨z, hz⟩ := hf.1 x xs ys
      rw [hz] at hr
      cases hr
  table _ _ := ⟨fun _ _ => trivial, fun _ _ => trivial⟩
  noTable := by
    intro t e h
    obtain ⟨x, hx⟩ := hb.table t
    cases h.symm.trans hx
  reference _ _ := ⟨fun _ _ => trivial, trivial⟩
  join _ _ _ _ _ := trivial
  set _ _ _ := trivial
  query _ _ _ _ _ _ _ _ := trivial

/-- **A source whose nodes are all accepted is translated, or the name of a source is missing.** -/
theorem directSource_or_unknown {b : Backend S F} {g : Provided} (hb : b.Provides g) (hc : b.Connects) {s : Source}
    (hs : s.Obeys (.acceptedBy b)) {w : Bench S F}
    (hw : w.tables.Sound (Feature.Obeys (.acceptedBy b))) :
    (∃ x, (eval (directSource b s) w).1 = .ok x) ∨
      ∃ o : Source, (eval (directSource b s) w).1 = .error (.unknownMapping o.text) := by
  have h := (namesOnly_lawful hb hc).source_outcome s hs (w := w) ⟨trivial, trivial, hw⟩
  cases hresult : (eval (directSource b s) w).1 with
  | ok x => exact .inl ⟨x, rfl⟩
  | error e =>
    obtain ⟨o, rfl⟩ := h.fault e hresult
    exact .inr ⟨o, rfl⟩

/-! ### Outcomes -/

/-- A computation ends well, with `post`, exactly if `found` holds, and otherwise with an unknown
source. -/
def Settles (p : Except Fault α × Bench S F) (found : Prop) (post : Bench S F → Prop) : Prop :=
  (found → ∃ x, p.1 = .ok x ∧ post p.2) ∧
    (¬found → ∃ o : Source, p.1 = .error (.unknownMapping o.text))

namespace Settles

variable {p : Except Fault α × Bench S F} {A B : Prop} {P Q : Bench S F → Prop}

theorem ok {x : α} {w : Bench S F} (h : P w) (ha : A) : Settles (.ok x, w) A P :=
  ⟨fun _ => ⟨x, rfl, h⟩, fun hn => absurd ha hn⟩

theorem congr (h : Settles p A P) (hab : A ↔ B) : Settles p B P :=
  ⟨fun hb => h.1 (hab.2 hb), fun hb => h.2 fun ha => hb (hab.1 ha)⟩

theorem weaken (h : Settles p A P) (hpq : A → ∀ w, P w → Q w) : Settles p A Q :=
  ⟨fun ha => let ⟨x, hx, hw⟩ := h.1 ha; ⟨x, hx, hpq ha _ hw⟩, h.2⟩

/-- Of two computations in turn, the second matters only where the first ends well. -/
theorem andThen (h : Settles p A P) {k : α → Bench S F → Except Fault β × Bench S F}
    (hk : A → ∀ x w, P w → Settles (k x w) B Q) : Settles (andThen p k) (A ∧ B) Q := by
  obtain ⟨r, w⟩ := p
  constructor
  · rintro ⟨ha, hb⟩
    obtain ⟨x, hx, hw⟩ := h.1 ha
    obtain rfl : r = .ok x := hx
    exact (hk ha x w hw).1 hb
  · intro hn
    by_cases ha : A
    · obtain ⟨x, hx, hw⟩ := h.1 ha
      obtain rfl : r = .ok x := hx
      exact (hk ha x w hw).2 fun hb => hn ⟨ha, hb⟩
    · obtain ⟨o, ho⟩ := h.2 ha
      obtain rfl : r = .error (.unknownMapping o.text) := ho
      exact ⟨o, rfl⟩

end Settles

/-! ### Benches -/

/-- A symbol is remembered under a key. -/
def Bench.Knows (w : Bench S F) (k : String) : Prop := (Assoc.find? (k == ·) w.memo).isSome = true

theorem Bench.knows_put (w : Bench S F) (key k : String) (x : F) :
    ({ w with memo := Assoc.put (· == ·) key x w.memo } : Bench S F).Knows k ↔
      k = key ∨ w.Knows k := by
  unfold Bench.Knows
  by_cases h : k = key
  · subst h; simp [Assoc.find?_put_self]
  · simp [Assoc.find?_put_of_ne _ _ h, h]

/-- What a bench holds is what is in sight: what the scope reads, the references visited in it, and
the elements asked for, besides those that symbols are provided for. Where a feature is remembered,
so are the elements inside it. -/
structure Sees (g : Provided) (w : Bench S F) (ts : Readings) (visited asked : List String) :
    Prop where
  tables   : w.tables = ts
  visited  : ∀ s : Source, s.type ≠ "Table" →
    ((w.origins.get? s).isSome = true ∨ s.key ∈ g.sources ↔ s.key ∈ visited)
  known    : ∀ k ∈ asked, w.Knows k ∨ k ∈ g.features
  provided : g.features ⊆ asked
  closed   : ∀ f : Feature, f.Obeys .distinct → w.Knows f.key → f.elementKeys ⊆ asked

namespace Sees

variable {g : Provided} {w : Bench S F} {ts : Readings} {visited asked : List String}

theorem fresh : Sees g (Bench.fresh : Bench S F) .empty g.sources g.features where
  tables := rfl
  visited s _ := by simp [Bench.fresh, KeyedMap.get?, KeyedMap.entry?, KeyedMap.empty, Assoc.find?]
  known k hk := .inr hk
  provided := List.Subset.refl _
  closed f _ hf := by simp [Bench.Knows, Bench.fresh, Assoc.find?] at hf

theorem inner (h : Sees g w ts visited asked) : Sees g w.inner .empty g.sources asked where
  tables := rfl
  visited s _ := by simp [Bench.inner, KeyedMap.get?, KeyedMap.entry?, KeyedMap.empty, Assoc.find?]
  known := h.known
  provided := h.provided
  closed := h.closed

theorem leave {w' : Bench S F} {ts' : Readings} {visited' asked' : List String}
    (h : Sees g w ts visited asked) (h' : Sees g w' ts' visited' asked') :
    Sees g (w'.leave w) ts visited asked' where
  tables := h.tables
  visited := h.visited
  known := h'.known
  provided := h'.provided
  closed := h'.closed

theorem noted (h : Sees g w ts visited asked) (notes : List Note) :
    Sees g { w with notes := notes } ts visited asked := { h with }

theorem congr {visited' asked' : List String} (h : Sees g w ts visited asked)
    (hv : ∀ k, k ∈ visited ↔ k ∈ visited') (ha : ∀ k, k ∈ asked ↔ k ∈ asked') :
    Sees g w ts visited' asked' where
  tables := h.tables
  visited s hs := (h.visited s hs).trans (hv _)
  known k hk := h.known k ((ha k).2 hk)
  provided k hk := (ha k).1 (h.provided hk)
  closed f hf hk := fun k hmem => (ha k).1 (h.closed f hf hk hmem)

/-- A feature whose direct parts were asked for may be remembered. -/
theorem put {f : Feature}
    (h : Sees g w ts visited (asked ++ f.children.flatMap Feature.elementKeys))
    (hasked : g.features ⊆ asked) (hf : f.Obeys .distinct) (x : F) :
    Sees g { w with memo := Assoc.put (· == ·) f.key x w.memo } ts visited
      (asked ++ f.elementKeys) := by
  have hparts : f.children.flatMap Feature.elementKeys ⊆ f.elementKeys := by
    rw [Feature.elementKeys_eq]
    split
    · cases f <;> simp_all [Feature.isElement, Feature.children]
    · exact fun _ h => h
  have put_known : ∀ k, w.Knows k ∨ k ∈ g.features →
      ({ w with memo := Assoc.put (· == ·) f.key x w.memo } : Bench S F).Knows k ∨
        k ∈ g.features := fun k hk => hk.imp_left fun hk => (w.knows_put f.key k x).2 (.inr hk)
  refine ⟨h.tables, h.visited, fun k hk => ?_, fun k hk => List.mem_append_left _ (hasked hk),
    fun e he hk => ?_⟩
  · rcases List.mem_append.1 hk with hk | hk
    · exact put_known k (h.known k (List.mem_append_left _ hk))
    · rw [Feature.elementKeys_eq] at hk
      split at hk
      · exact .inl ((w.knows_put f.key k x).2 (.inl (List.mem_singleton.1 hk)))
      · exact put_known k (h.known k (List.mem_append_right _ hk))
  · rcases (w.knows_put f.key e.key x).1 hk with hkey | hk
    · rw [Feature.elementKeys_eq_of_key he hf hkey]
      exact List.subset_append_right _ _
    · intro k hmem
      exact (List.mem_append.1 (h.closed e he hk hmem)).elim (List.mem_append_left _)
        fun hk => List.mem_append_right _ (hparts hk)

end Sees

/-! ### Features -/

/-- A feature that is recalled is translated exactly when the elements inside it are found. -/
def Recalls (b : Backend S F) (g : Provided) (f : Feature) : Prop :=
  ∀ (w : Bench S F) (ts : Readings) (visited asked : List String), Sees g w ts visited asked →
    Settles (eval (Direct.recall f.key (directFeature b f)) w)
      (∀ e ∈ f.elements, e.Found visited asked)
      fun w' => Sees g w' ts visited (asked ++ keysOf f.elements)

section

variable {b : Backend S F} {g : Provided} {w : Bench S F} {ts : Readings}
  {visited asked : List String}

theorem directFeatures_settles : ∀ {fs : List Feature}, (∀ f ∈ fs, Recalls b g f) →
    (∀ f ∈ fs, f.Obeys .distinct) → ∀ {w : Bench S F} {asked : List String},
    Sees g w ts visited asked →
    Settles (eval (directFeatures b fs) w) (∀ e ∈ elementsOf fs, e.Found visited asked)
      fun w' => Sees g w' ts visited (asked ++ keysOf (elementsOf fs))
  | [], _, _, w, asked, h => by
    exact .ok (by simpa [elementsOf, keysOf] using h) (by simp [elementsOf])
  | f :: r, hrecall, hobeys, w, asked, h => by
    obtain ⟨hf, hr⟩ := List.forall_mem_cons.1 hrecall
    obtain ⟨of, or⟩ := List.forall_mem_cons.1 hobeys
    simp only [directFeatures, eval_bind]
    refine ((hf w ts visited asked h).andThen fun _ x w' h' =>
      (directFeatures_settles hr or h').andThen fun _ xs w'' h'' =>
        Settles.ok (P := fun w' => Sees g w' ts visited (asked ++ keysOf (elementsOf (f :: r))))
          (by simpa [elementsOf, keysOf_append] using h'') trivial).congr ?_
    rw [and_true]
    exact Feature.forall_found_append of.elements (elementsOf_obey or)

theorem directTerms_settles : ∀ {os : List OrderTerm}, (∀ o ∈ os, Recalls b g o.feature) →
    (∀ o ∈ os, o.feature.Obeys .distinct) → ∀ {w : Bench S F} {asked : List String},
    Sees g w ts visited asked →
    Settles (eval (directTerms b os) w) (∀ e ∈ elementsOfTerms os, e.Found visited asked)
      fun w' => Sees g w' ts visited (asked ++ keysOf (elementsOfTerms os))
  | [], _, _, w, asked, h => by
    exact .ok (by simpa [elementsOfTerms, keysOf] using h) (by simp [elementsOfTerms])
  | .by f d :: r, hrecall, hobeys, w, asked, h => by
    obtain ⟨hf, hr⟩ := List.forall_mem_cons.1 hrecall
    obtain ⟨of, or⟩ := List.forall_mem_cons.1 hobeys
    simp only [directTerms, eval_bind]
    refine ((hf w ts visited asked h).andThen fun _ x w' h' =>
      (directTerms_settles hr or h').andThen fun _ xs w'' h'' =>
        Settles.ok
          (P := fun w' => Sees g w' ts visited (asked ++ keysOf (elementsOfTerms (.by f d :: r))))
          (by simpa [elementsOfTerms, OrderTerm.feature, keysOf_append] using h'') trivial).congr ?_
    rw [and_true]
    exact Feature.forall_found_append of.elements (elementsOfTerms_obey or)

theorem directOption_settles {o : Option Feature} (hrecall : ∀ f ∈ o, Recalls b g f)
    (h : Sees g w ts visited asked) :
    Settles (eval (directOption b o) w) (∀ e ∈ elementsOfOption o, e.Found visited asked)
      fun w' => Sees g w' ts visited (asked ++ keysOf (elementsOfOption o)) := by
  cases o with
  | none => exact .ok (by simpa [elementsOfOption, keysOf] using h) (by simp [elementsOfOption])
  | some f =>
    simp only [directOption, eval_bind]
    exact ((hrecall f rfl w ts visited asked h).andThen fun _ x w' h' =>
      Settles.ok (P := fun w' => Sees g w' ts visited (asked ++ keysOf f.elements)) h'
        trivial).congr (iff_of_eq (and_true _))

/-- An element is translated exactly when it is found, and nothing new is remembered. -/
theorem directElement_settles (hb : b.Provides g) {s : Source} {n : String} {k : Kind}
    (h : Sees g w ts visited asked) (hnew : ¬w.Knows (Feature.element s n k).key) :
    Settles (eval (directElement b s n k) w) ((Feature.element s n k).Found visited asked)
      fun w' => Sees g w' ts visited asked := by
  rw [eval_directElement]
  have hvisited := h.visited s
  unfold Backend.elementSymbol
  cases hfeature : b.features.get? (.element s n k) with
  | some x =>
    have given := (hb.features (.element s n k)).1 (by simp [hfeature])
    exact .ok h (Feature.found_of_asked (h.provided given))
  | none =>
    have notGiven : (Feature.element s n k).key ∉ g.features := fun hk => by
      simpa [hfeature] using (hb.features _).2 hk
    have notAsked : (Feature.element s n k).key ∉ asked := fun hk =>
      (h.known _ hk).elim hnew notGiven
    simp only [Backend.origin]
    cases horigin : w.origins.get? s with
    | some y =>
      refine .ok h ?_
      cases s with
      | table t => trivial
      | _ => exact .inl ((hvisited (by simp [Source.type])).1 (.inl (by simp [horigin])))
    | none =>
      cases s with
      | table t =>
        obtain ⟨x, hx⟩ := hb.table t
        simp only [hx]
        exact .ok h trivial
      | _ =>
        dsimp only
        cases hsource : b.sources.get? _ with
        | some y =>
          have given := (hb.sources _).1 (Option.isSome_iff_exists.2 ⟨y, hsource⟩)
          exact .ok h (.inl ((hvisited (by simp [Source.type])).1 (.inr given)))
        | none =>
          refine ⟨fun hfound => ?_, fun _ => ⟨_, rfl⟩⟩
          rcases hfound with hkey | hkey
          · rcases (hvisited (by simp [Source.type])).2 hkey with hv | given
            · simp [horigin] at hv
            · simpa [hsource] using (hb.sources _).2 given
          · exact absurd hkey notAsked

/-- Once a feature is no longer remembered it is recalled as it is translated. -/
theorem recalls_of_direct {f : Feature} (hf : f.Obeys .distinct)
    (hdirect : ∀ (w : Bench S F) (ts : Readings) (visited asked : List String),
      Sees g w ts visited asked → ¬w.Knows f.key →
      Settles (eval (directFeature b f) w) (∀ e ∈ f.elements, e.Found visited asked)
        fun w' => Sees g w' ts visited (asked ++ f.children.flatMap Feature.elementKeys)) :
    Recalls b g f := by
  intro w ts visited asked h
  unfold Direct.recall
  simp only [eval_bind, eval_get, andThen_ok]
  cases hmemo : Assoc.find? (f.key == ·) w.memo with
  | some x =>
    have hknown : f.elementKeys ⊆ asked := h.closed f hf (by simp [Bench.Knows, hmemo])
    refine .ok (h.congr (fun _ => Iff.rfl) fun k => ?_) fun e he =>
      Feature.found_of_asked (hknown (List.mem_map_of_mem he))
    rw [List.mem_append]
    exact ⟨.inl, fun hk => hk.elim id fun hk => hknown hk⟩
  | none =>
    simp only [eval_bind]
    exact ((hdirect w ts visited asked h (by simp [Bench.Knows, hmemo])).andThen fun _ x w' h' =>
      Settles.ok (P := fun w' => Sees g w' ts visited (asked ++ keysOf f.elements)) (h'.put h.provided hf x)
        trivial).congr (iff_of_eq (and_true _))

theorem eval_settle_ok (x : α) : eval (Direct.settle (.ok x) : Direct S F α) w = (.ok x, w) := rfl

end

/-- **A feature that a backend accepts is translated exactly when the elements inside it are
found**, and these are remembered then. -/
theorem recall_settles {b : Backend S F} {g : Provided} (hb : b.Provides g) : ∀ f : Feature,
    f.Obeys .distinct → f.Obeys (.acceptedBy b) → Recalls b g f := by
  refine Feature.childInduction fun f ih hf ha => recalls_of_direct hf ?_
  have parts : ∀ c ∈ f.children, Recalls b g c := fun c hc =>
    ih c hc (hf.children c hc) (ha.children c hc)
  have obey := hf.children
  intro w ts visited asked h hnew
  have ended : ∀ {f : Feature} {x : F} {w' : Bench S F},
      Sees g w' ts visited (asked ++ f.children.flatMap Feature.elementKeys) →
      Settles (.ok x, w') True fun w' =>
        Sees g w' ts visited (asked ++ f.children.flatMap Feature.elementKeys) :=
    fun h => .ok h trivial
  cases f with
  | aliased g n =>
    have hg := parts g (by simp [Feature.children])
    simp only [directFeature, eval_bind]
    exact ((hg w ts visited asked h).andThen fun _ x w' h' => ended
      (by simpa [Feature.children, Feature.elementKeys, keysOf] using h')).congr
        (iff_of_eq (and_true _))
  | literal v k =>
    obtain ⟨x, hx⟩ := ha
    simp only [directFeature, hx, eval_settle_ok]
    exact (ended (by simpa [Feature.children] using h)).congr (by simp [Feature.elements])
  | element s n k =>
    simp only [directFeature]
    exact ((directElement_settles hb h hnew).weaken fun _ w' h' => by
      simpa [Feature.children] using h').congr (by simp [Feature.elements])
  | expression op args t =>
    simp only [directFeature, eval_bind]
    refine ((directFeatures_settles parts obey h).andThen fun _ xs w' h' => ?_).congr
      (iff_of_eq (and_true _))
    obtain ⟨y, hy⟩ := ha.1 xs
    obtain ⟨notes, replaced⟩ := eval_directReplaced b (.expression op args t) y w'
    simp only [hy, eval_settle_ok, andThen_ok, replaced]
    exact ended (Sees.noted (by rwa [keysOf_elementsOf] at h') notes)
  | window fn ps os fr =>
    have hfn := parts fn (by simp [Feature.children])
    have ofn := obey fn (by simp [Feature.children])
    have hps : ∀ p ∈ ps, Recalls b g p := fun p hp => parts p (by simp [Feature.children, hp])
    have ops : ∀ p ∈ ps, p.Obeys .distinct := fun p hp => obey p (by simp [Feature.children, hp])
    have hos : ∀ o ∈ os, Recalls b g o.feature := fun o ho =>
      parts o.feature (List.mem_append_right _ (List.mem_map_of_mem ho))
    have oos : ∀ o ∈ os, o.feature.Obeys .distinct := fun o ho =>
      obey o.feature (List.mem_append_right _ (List.mem_map_of_mem ho))
    simp only [directFeature, eval_bind]
    refine ((hfn w ts visited asked h).andThen fun _ x w₁ h₁ =>
      (directFeatures_settles hps ops h₁).andThen fun _ xs w₂ h₂ =>
        (directTerms_settles hos oos h₂).andThen (B := True) fun _ ys w₃ h₃ => ?_).congr ?_
    · obtain ⟨z, hz⟩ := ha.1 x xs ys
      obtain ⟨notes, replaced⟩ := eval_directReplaced b (.window fn ps os fr) z w₃
      simp only [hz, eval_settle_ok, andThen_ok, replaced]
      have own : keysOf fn.elements = fn.elementKeys := rfl
      rw [keysOf_elementsOf, keysOf_elementsOfTerms, own] at h₃
      exact ended (Sees.noted (by simpa [Feature.children, List.append_assoc] using h₃) notes)
    · rw [and_true, ← and_assoc, Feature.forall_found_append ofn.elements (elementsOf_obey ops),
        List.append_assoc, ← keysOf_append]
      exact Feature.forall_found_append
        (List.forall_mem_append.2 ⟨ofn.elements, elementsOf_obey ops⟩) (elementsOfTerms_obey oos)

/-! ### Sources -/

/-- Everything that sources register keeps what holds of all their features. -/
theorem registers_sound {P : Feature → Prop} (hP : Inherited P) {p q : Rules}
    (hpq : ∀ f : Feature, f.Obeys p → f.Obeys q → P f) : ∀ (s : Source) {ts : Readings},
      s.Obeys p → s.Obeys q → ts.Sound P → (s.registers ts).Sound P
  | .table t, _, _, _, h => h.touch t
  | .reference s _, _, hs, gs, h => registers_sound hP hpq s hs.2 gs.2 h
  | .join l r _ c, _, hs, gs, h => by
    refine registers_sound hP hpq r hs.2.2.1 gs.2.2.1
      (registers_sound hP hpq l hs.2.1 gs.2.1 (hP.filterBy h fun f hf => ?_))
    exact hpq f (optionObeys_iff.1 hs.2.2.2 f hf) (optionObeys_iff.1 gs.2.2.2 f hf)
  | .set l r _, _, hs, gs, h =>
    registers_sound hP hpq r hs.2.2 gs.2.2 (registers_sound hP hpq l hs.2.1 gs.2.1 h)
  | .query .., _, _, _, h => h

namespace Sees

variable {g : Provided} {w : Bench S F} {ts : Readings} {visited asked : List String}

theorem tableOrigin (h : Sees g w ts visited asked) (t : Schema) (o : S) :
    Sees g { w with origins := w.origins.set (.table t) o } ts visited asked where
  tables := h.tables
  visited s hs := by
    have hne : s.key ≠ (Source.table t).key := fun hkey =>
      hs (Source.type_eq hkey)
    rw [KeyedMap.get?_set_of_ne _ _ hne]
    exact h.visited s hs
  known := h.known
  provided := h.provided
  closed := h.closed

theorem referenceOrigin (h : Sees g w ts visited asked) (s : Source) (n : String) (o : S) :
    Sees g { w with origins := w.origins.set (.reference s n) o } ts
      ((Source.reference s n).key :: visited) asked where
  tables := h.tables
  visited t ht := by
    rw [List.mem_cons]
    by_cases hkey : t.key = (Source.reference s n).key
    · simp [KeyedMap.get?_set_of_eq _ o (a := .reference s n) (b := t) hkey.symm, hkey]
    · rw [KeyedMap.get?_set_of_ne _ _ hkey]
      simpa [hkey] using h.visited t ht
  known := h.known
  provided := h.provided
  closed := h.closed

end Sees

section

variable {b : Backend S F} {g : Provided} {w : Bench S F} {ts : Readings}
  {visited asked : List String}

theorem found_of_column {c e : Feature} (hc : c.table?.isSome = true) (he : e ∈ c.elements) :
    e.Found visited asked := by
  cases c with
  | element s n k =>
    cases s with
    | table t =>
      obtain rfl : e = _ := by simpa [Feature.elements] using he
      trivial
    | _ => simp [Feature.table?] at hc
  | _ => simp [Feature.table?] at hc

/-- A scan is translated exactly when its predicate asks only for elements that are found. -/
theorem directTable_settles (hb : b.Provides g) (hc : b.Connects) (t : Schema)
    (h : Sees g w ts visited asked) (hts : ts.Sound (Sure b)) :
    Settles (eval (directTable b t) w) ((Source.table t).Ready g.sources ts visited asked)
      fun w' => Sees g w' (ts.touch t) visited (asked ++ keysOf ((Source.table t).asks ts)) := by
  obtain ⟨o, ho⟩ := hb.table t
  have hfields := (hts.touch t).fields t
  have hpredicate := (inherited_sure hc).predicate (hts.touch t) t
  have touched : Sees g { w with origins := w.origins.set (.table t) o, tables := ts.touch t }
      (ts.touch t) visited asked :=
    { h.tableOrigin t o with tables := rfl }
  simp only [directTable, ho, eval_bind, eval_settle_ok, Direct.setOrigin,
    Direct.modifyTables, eval_modify, andThen_ok, eval_get, h.tables]
  refine ((directFeatures_settles (fun c hc' => recall_settles hb c (hfields c hc').2.1
      (hfields c hc').2.2) (fun c hc' => (hfields c hc').2.1) touched).andThen fun _ xs w₁ h₁ =>
    (directOption_settles (fun q hq => recall_settles hb q (hpredicate q hq).1 (hpredicate q hq).2)
      h₁).andThen (B := True) fun _ x w₂ h₂ => ?_).congr ?_
  · have scanned : Sees g w₂ (ts.touch t) visited (asked ++ keysOf ((Source.table t).asks ts)) :=
      h₂.congr (fun k => Iff.rfl) fun k => by simp [Source.asks, keysOf_append]
    exact .ok { scanned with } trivial
  · have columns : ∀ e ∈ elementsOf ((ts.touch t).reading t).fields, e.Found visited asked := by
      intro e he
      obtain ⟨c, hc', he⟩ := mem_elementsOf.1 he
      exact found_of_column (hfields c hc').1 he
    rw [and_true]
    exact (Feature.forall_found_append (elementsOf_obey fun c hc' => (hfields c hc').2.1)
      (elementsOfOption_obey fun q hq => (hpredicate q hq).1)).trans
      (by rw [List.forall_mem_append]; exact and_iff_right columns)

/-- Whatever a body does in a scope of its own is kept, but for what it reads and visits there. -/
theorem scope_settles {d : Direct S F α} {A : Prop} {P : Bench S F → Prop}
    (h : Settles (eval d w.inner) A P) :
    Settles (eval d.scope w) A fun w' => ∃ v, P v ∧ w' = v.leave w :=
  ⟨fun ha => let ⟨x, hx, hv⟩ := h.1 ha; ⟨x, hx, _, hv, rfl⟩, h.2⟩

/-- Behind both sides of a join the elements inside its condition are found. -/
theorem condition_found {l r : Source} {k : JoinType} {c : Option Feature}
    (built : (Source.join l r k c).Built) (od : (Source.join l r k c).Obeys .distinct) :
    ∀ e ∈ elementsOfOption c, e.Found (visited ++ l.visits ++ r.visits)
      (asked ++ keysOf (l.asks (ts.filterBy c)) ++ keysOf (r.asks (l.registers (ts.filterBy c)))) := by
  obtain ⟨_, dl, dr, dc⟩ := od
  have offered : ∀ g ∈ l.features ++ r.features, ∀ e ∈ g.elements,
      e.Found (visited ++ l.visits ++ r.visits) (asked ++ keysOf (l.asks (ts.filterBy c)) ++
        keysOf (r.asks (l.registers (ts.filterBy c)))) := by
    intro g hg e he
    rcases List.mem_append.1 hg with hg | hg
    · exact (l.offers (ts.filterBy c) g hg e he).mono (by simp) (by simp)
    · exact (r.offers (l.registers (ts.filterBy c)) g hg e he).mono (by simp) (by simp)
  have features : ∀ g ∈ l.features ++ r.features, g.Obeys .distinct :=
    List.forall_mem_append.2 ⟨Source.Obeys.features Rules.distinct_offered l dl,
      Source.Obeys.features Rules.distinct_offered r dr⟩
  intro e he
  obtain ⟨p, hp, he⟩ := mem_elementsOfOption.1 he
  obtain ⟨-, -, -, condition⟩ := built.inv_join
  exact (condition p hp).within.found (optionObeys_iff.1 dc p hp) features offered e he

/-- A statement is translated exactly when its source is, in a scope that begins with what the
clauses register. -/
theorem query_settles (hb : b.Provides g) (hc : b.Connects) {s : Source} {sel : List Feature}
    {pre : Option Feature} {grp : List Feature} {post : Option Feature} {ord : List OrderTerm}
    {rows : Option RowRange} (built : (Source.query s sel pre grp post ord rows).Built)
    (od : (Source.query s sel pre grp post ord rows).Obeys .distinct)
    (oa : (Source.query s sel pre grp post ord rows).Obeys (.acceptedBy b))
    (inner : ∀ {w : Bench S F} {ts : Readings} {visited asked : List String},
      Sees g w ts visited asked → ts.Sound (Sure b) →
      Settles (eval (directSource b s) w) (s.Ready g.sources ts visited asked) fun w' =>
        Sees g w' (s.registers ts) (visited ++ s.visits) (asked ++ keysOf (s.asks ts)))
    (h : Sees g w ts visited asked) :
    Settles (eval (directSource b (.query s sel pre grp post ord rows)) w)
      ((Source.query s sel pre grp post ord rows).Ready g.sources ts visited asked) fun w' =>
        Sees g w' ((Source.query s sel pre grp post ord rows).registers ts)
          (visited ++ (Source.query s sel pre grp post ord rows).visits)
          (asked ++ keysOf ((Source.query s sel pre grp post ord rows).asks ts)) := by
  have hq := built.inv_query
  have hfound := hq.found od (registered s sel pre grp post ord)
  have houtputs : (Source.query s sel pre grp post ord rows).features
      = (Source.query s sel pre grp post ord none).features := by simp only [Source.features]
  have outD := Source.Obeys.features Rules.distinct_offered _ od
  have outA := Source.Obeys.features (Rules.offered_of_element fun _ _ _ => trivial) _ oa
  have clausesD := od.statement
  have clausesA := oa.statement
  rw [houtputs] at outD outA
  -- The scope of the statement begins with what its clauses register.
  have begun : Sees g { w.inner with tables := registered s sel pre grp post ord }
      (registered s sel pre grp post ord) g.sources asked := { h.inner with tables := rfl }
  have sound : (registered s sel pre grp post ord).Sound (Sure b) :=
    (inherited_sure hc).registerClauses (fun f hf => ⟨outD f hf, outA f hf⟩)
      (fun f hf => ⟨clausesD.prefilter f hf, clausesA.prefilter f hf⟩)
      (fun f hf => ⟨clausesD.grouping f hf, clausesA.grouping f hf⟩)
      (fun f hf => ⟨clausesD.postfilter f hf, clausesA.postfilter f hf⟩)
      (fun o ho => ⟨clausesD.ordering o ho, clausesA.ordering o ho⟩)
  simp only [directSource, eval_bind]
  refine ((scope_settles (A := s.Ready g.sources (registered s sel pre grp post ord) g.sources asked)
    (P := fun w' => Sees g w' (s.registers (registered s sel pre grp post ord)) (g.sources ++ s.visits)
      (asked ++ keysOf ((Source.query s sel pre grp post ord rows).asks ts))) ?_).andThen
    (B := True) fun _ x w' h' => ?_).congr (iff_of_eq (and_true _))
  · simp only [eval_bind, Direct.modifyTables, eval_modify, andThen_ok, houtputs]
    refine ((inner begun sound).andThen fun _ x w₁ h₁ =>
      (directFeatures_settles (fun f hf => recall_settles hb f (outD f hf) (outA f hf)) outD
        h₁).andThen fun _ xs w₂ h₂ =>
      (directOption_settles (fun f hf =>
        recall_settles hb f (clausesD.prefilter f hf) (clausesA.prefilter f hf)) h₂).andThen
        fun _ y w₃ h₃ =>
      (directFeatures_settles (fun f hf =>
        recall_settles hb f (clausesD.grouping f hf) (clausesA.grouping f hf)) clausesD.grouping
        h₃).andThen fun _ ys w₄ h₄ =>
      (directOption_settles (fun f hf =>
        recall_settles hb f (clausesD.postfilter f hf) (clausesA.postfilter f hf)) h₄).andThen
        fun _ z w₅ h₅ =>
      (directTerms_settles (fun o ho => recall_settles hb o.feature (clausesD.ordering o ho)
        (clausesA.ordering o ho)) clausesD.ordering
        h₅).andThen (B := True) fun _ zs w₆ h₆ => ?_).congr ?_
    · refine .ok (h₆.congr (fun k => Iff.rfl) fun k => ?_) trivial
      simp [Source.asks, clauseElements, keysOf_append]
    · refine and_iff_left ⟨?_, ?_, ?_, ?_, ?_, trivial⟩ <;>
        exact fun e he => (hfound e (by simp [clauseElements, he])).mono (by simp) (by simp)
  · obtain ⟨v, hv, rfl⟩ := h'
    obtain ⟨notes, replaced⟩ :=
      eval_directReplacedSource b (.query s sel pre grp post ord rows) x (v.leave w)
    rw [replaced]
    refine .ok (((h.leave hv).noted notes).congr (fun k => ?_) fun k => Iff.rfl) trivial
    simp [Source.visits]

end

/-- **A built source that a backend accepts is translated exactly when it is ready.** What the scope
reads must be sure only where the source scans tables in that scope. -/
theorem directSource_settles {b : Backend S F} {g : Provided} (hb : b.Provides g) (hc : b.Connects) :
    ∀ (s : Source), s.Built → s.Obeys .distinct → s.Obeys (.acceptedBy b) →
      ∀ {w : Bench S F} {ts : Readings} {visited asked : List String}, Sees g w ts visited asked →
      s.IsStatement ∨ ts.Sound (Sure b) →
      Settles (eval (directSource b s) w) (s.Ready g.sources ts visited asked) fun w' =>
        Sees g w' (s.registers ts) (visited ++ s.visits) (asked ++ keysOf (s.asks ts))
  | .table t, _, _, _, _, _, _, _, h, hts => by
    simp only [directSource]
    exact (directTable_settles hb hc t h (hts.resolve_left id)).weaken fun _ w' h' => by
      simpa [Source.registers, Source.visits] using h'
  | .reference s n, built, od, oa, w, ts, visited, asked, h, hts => by
    have hs := directSource_settles hb hc s built.inv_reference.1 od.2 oa.2 h
      (.inr (hts.resolve_left id))
    simp only [directSource, eval_bind]
    refine (hs.andThen (B := True) fun _ x w' h' => ?_).congr (iff_of_eq (and_true _))
    refine .ok ((h'.referenceOrigin s n _).congr (fun k => ?_) fun k => Iff.rfl) trivial
    simp only [Source.visits, List.mem_cons, List.mem_append]
    tauto
  | .join l r k c, built, od, oa, w, ts, visited, asked, h, hts => by
    obtain ⟨bl, br, -⟩ := built.inv_join
    have condition := @condition_found ts visited asked _ _ _ _ built od
    obtain ⟨_, dl, dr, dc⟩ := od
    obtain ⟨_, al, ar, ac⟩ := oa
    have dc := optionObeys_iff.1 dc
    have ac := optionObeys_iff.1 ac
    have hP := inherited_sure hc
    have filtered : Sees g { w with tables := ts.filterBy c } (ts.filterBy c) visited asked :=
      { h with tables := rfl }
    have hts := hP.filterBy (hts.resolve_left id) fun p hp => ⟨dc p hp, ac p hp⟩
    have hright := registers_sound hP (fun _ hd ha => ⟨hd, ha⟩) l dl al hts
    rw [eval_directSource_join, h.tables]
    simp only [eval_bind]
    refine ((directSource_settles hb hc l bl dl al filtered (.inr hts)).andThen fun _ x w₁ h₁ =>
      (directSource_settles hb hc r br dr ar h₁ (.inr hright)).andThen fun _ y w₂ h₂ =>
        (directOption_settles (fun p hp => recall_settles hb p (dc p hp) (ac p hp)) h₂).andThen
          (B := True) fun _ z w₃ h₃ => ?_).congr ?_
    · obtain ⟨notes, replaced⟩ := eval_directReplacedSource b (.join l r k c) (b.join x y z k) w₃
      rw [replaced]
      refine .ok ((h₃.noted notes).congr (fun k => ?_) fun k => ?_) trivial
      · simp [Source.visits]
      · simp [Source.asks, keysOf_append]
    · exact and_congr_right fun _ => and_iff_left ⟨condition, trivial⟩
  | .set l r k, built, od, oa, w, ts, visited, asked, h, hts => by
    obtain ⟨bl, br, _⟩ := built.inv_set
    obtain ⟨_, dl, dr⟩ := od
    obtain ⟨_, al, ar⟩ := oa
    have hright : r.IsStatement ∨ (l.registers ts).Sound (Sure b) := hts.imp And.right fun hts =>
      registers_sound (inherited_sure hc) (fun _ hd ha => ⟨hd, ha⟩) l dl al hts
    simp only [directSource, eval_bind]
    refine ((directSource_settles hb hc l bl dl al h (hts.imp_left And.left)).andThen fun _ x w₁ h₁ =>
      (directSource_settles hb hc r br dr ar h₁ hright).andThen (B := True) fun _ y w₂ h₂ =>
        ?_).congr (by rw [and_true]; rfl)
    obtain ⟨notes, replaced⟩ := eval_directReplacedSource b (.set l r k) (b.set x y k) w₂
    rw [replaced]
    refine .ok ((h₂.noted notes).congr (fun k => ?_) fun k => ?_) trivial
    · simp [Source.visits]
    · simp [Source.asks, keysOf_append]
  | .query s sel pre grp post ord rows, built, od, oa, w, ts, visited, asked, h, _ =>
    query_settles hb hc built od oa (fun h sound =>
      directSource_settles hb hc s built.inv_query.source od.2.1 oa.2.1 h (.inr sound)) h

end Translation

end QueryAlgebra
