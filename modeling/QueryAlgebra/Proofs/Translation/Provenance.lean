import QueryAlgebra.Proofs.Translation.Invariant

/-!
# Where remembered symbols come from

What is remembered under a key was once given by a node with that key, for symbols of its parts that
are still remembered. A key determines a node up to what it does not keep, so the symbols that are
remembered for a tree tell one another.

* `Stems`: a symbol is what some node with the key gives.
* `stemming`: all that is remembered stems from nodes, whatever a translator has done before.
* `Stems.aliased`, `Stems.literal`, `Stems.element`, `Stems.expression`, `Stems.window`: what is
  remembered for a node, in terms of what is remembered for its parts.
-/

namespace QueryAlgebra.Translation

variable {S F : Type}

/-- The symbol is what some node with the key gives for what is remembered; `P` holds of the origins
that were visited then. -/
def Stems (b : Backend S F) (P : KeyedMap Source S → Prop) (m : List (String × F)) (k : String)
    (x : F) : Prop :=
  ∃ (f : Feature) (o : KeyedMap Source S), f.Obeys .distinct ∧ f.key = k ∧ P o ∧ b.Gives m o f (.ok x)

/-! ### Memos that grow -/

theorem remembers_put_of_new {m : List (String × F)} {k : String} (new : ∀ y, ¬Remembers m k y)
    (x : F) {l : String} {y : F} (h : Remembers m l y) :
    Remembers (Assoc.put (· == ·) k x m) l y := by
  have hne : l ≠ k := fun hlk => new y (hlk ▸ h)
  rwa [Remembers, Assoc.find?_put_of_ne _ _ hne]

/-- What a node gives stays so when more is remembered. -/
theorem Backend.Gives.mono {b : Backend S F} {m m' : List (String × F)} {o : KeyedMap Source S}
    {f : Feature} {r : Except Fault F} (h : b.Gives m o f r)
    (stays : ∀ k x, Remembers m k x → Remembers m' k x) : b.Gives m' o f r := by
  cases h with
  | aliased hx => exact .aliased (stays _ _ hx)
  | literal => exact .literal
  | element => exact .element
  | expression hxs => exact .expression (hxs.imp fun _ _ hk => stays _ _ hk)
  | window hx hxs hys =>
    exact .window (stays _ _ hx) (hxs.imp fun _ _ hk => stays _ _ hk)
      (hys.imp fun _ _ hk => ⟨stays _ _ hk.1, hk.2⟩)

/-- All that is remembered stems from nodes; `P` holds of the origins. -/
def stemming (b : Backend S F) (P : KeyedMap Source S → Prop) : Invariant S F where
  rules := .distinct
  memo m := ∀ k x, Remembers m k x → Stems b P m k x
  origins := P
  source _ _ := True
  fault _ := True

/-- What holds of the origins in every scope: it holds where none is visited yet, and it stays when
a table or a reference is visited. -/
structure Backend.Visits (b : Backend S F) (P : KeyedMap Source S → Prop) : Prop where
  nowhere : P .empty
  table : ∀ {t x o}, b.table t (b.sources.get? (.table t)) = .ok x → P o → P (o.set (.table t) x)
  reference : ∀ {s n x o}, P o → P (o.set (.reference s n) (b.reference x n).2)

/-- **All that is remembered stems from nodes.** -/
theorem stemming_lawful {b : Backend S F} {P : KeyedMap Source S → Prop} (visits : b.Visits P) :
    (stemming b P).Lawful b where
  selected := Rules.selected_of_element fun _ _ _ => trivial
  connective _ _ _ _ _ _ := nofun
  nowhere := visits.nowhere
  put := by
    intro f m o x hf hm ho _ new gives k y hy
    by_cases hk : k = f.key
    · subst hk
      obtain rfl : x = y := by
        rw [Remembers, Assoc.find?_put_self] at hy
        exact Option.some.inj hy
      exact ⟨f, o, hf, rfl, ho, gives.mono fun _ _ h => remembers_put_of_new new x h⟩
    · rw [Remembers, Assoc.find?_put_of_ne _ _ hk] at hy
      obtain ⟨g, o', hg, hkey, ho', hgives⟩ := hm k y hy
      exact ⟨g, o', hg, hkey, ho', hgives.mono fun _ _ h => remembers_put_of_new new x h⟩
  refused _ _ _ _ := trivial
  table _ hx := ⟨fun _ ho => visits.table hx ho, fun _ _ => trivial⟩
  noTable _ := trivial
  reference _ _ := ⟨fun _ ho => visits.reference ho, trivial⟩
  join _ _ _ _ _ := trivial
  set _ _ _ := trivial
  query _ _ _ _ _ _ _ _ := trivial

/-- The origins that were visited do not matter. -/
theorem Backend.visits_any (b : Backend S F) : b.Visits fun _ => True :=
  ⟨trivial, fun _ _ => trivial, fun _ => trivial⟩

/-! ### Symbols of nodes -/

theorem Remembered.congr {m : List (String × F)} : ∀ {fs gs : List Feature} {xs : List F},
    canonicalFeatures fs = canonicalFeatures gs → Remembered m fs xs → Remembered m gs xs
  | [], [], _, _, h => h
  | f :: r, g :: q, x :: xs, heq, h => by
    obtain ⟨hfg, hrq⟩ := List.cons.inj heq
    obtain ⟨hx, hxs⟩ := List.forall₂_cons.1 h
    have hkey : f.key = g.key := by rw [← f.key_canonical, hfg, g.key_canonical]
    exact .cons (hkey ▸ hx) (Remembered.congr hrq hxs)

theorem RememberedTerms.congr {m : List (String × F)} : ∀ {os us : List OrderTerm}
    {ys : List (OrderSymbol F)}, canonicalTerms os = canonicalTerms us → RememberedTerms m os ys →
    RememberedTerms m us ys
  | [], [], _, _, h => h
  | .by f d :: r, .by g e :: q, y :: ys, heq, h => by
    obtain ⟨hfg, hrq⟩ := List.cons.inj heq
    obtain rfl : d = e := (OrderTerm.by.inj hfg).2
    obtain ⟨hy, hys⟩ := List.forall₂_cons.1 h
    have hkey : f.key = g.key := by
      have hfg : f.canonical = g.canonical := (OrderTerm.by.inj hfg).1
      rw [← f.key_canonical, hfg, g.key_canonical]
    exact .cons ⟨hkey ▸ hy.1, hy.2⟩ (RememberedTerms.congr hrq hys)

namespace Stems

variable {b : Backend S F} {P : KeyedMap Source S → Prop} {m : List (String × F)} {x : F}

/-- The node that a symbol stems from is the node itself, but for what its key does not keep. -/
theorem canonical {f : Feature} (hf : f.Obeys .distinct) (h : Stems b P m f.key x) :
    ∃ (g : Feature) (o : KeyedMap Source S),
      g.key = f.key ∧ g.canonical = f.canonical ∧ P o ∧ b.Gives m o g (.ok x) := by
  obtain ⟨g, o, hg, hkey, ho, gives⟩ := h
  exact ⟨g, o, hkey, Feature.canonical_eq_of_key hg hf hkey, ho, gives⟩

theorem aliased {f : Feature} {n : String} (hf : (Feature.aliased f n).Obeys .distinct)
    (h : Stems b P m (Feature.aliased f n).key x) :
    ∃ y, Remembers m f.key y ∧ x = b.aliased y n := by
  obtain ⟨g, o, -, same, -, gives⟩ := h.canonical hf
  generalize hr : Except.ok x = r at gives
  cases gives with
  | @aliased g l y hy =>
    obtain ⟨hfg, rfl⟩ : g.canonical = f.canonical ∧ l = n := by simpa [Feature.canonical] using same
    have hkey : g.key = f.key := by rw [← g.key_canonical, hfg, f.key_canonical]
    exact ⟨y, hkey ▸ hy, Except.ok.inj hr⟩
  | _ => simp [Feature.canonical] at same

theorem literal {v : Value} {k : Kind} (hf : (Feature.literal v k).Obeys .distinct)
    (h : Stems b P m (Feature.literal v k).key x) :
    ∃ w : Value, w.canonical = v.canonical ∧ b.literal w k = .ok x := by
  obtain ⟨g, o, -, same, -, gives⟩ := h.canonical hf
  generalize hr : Except.ok x = r at gives
  cases gives with
  | @literal w l =>
    obtain ⟨hvw, rfl⟩ : w.canonical = v.canonical ∧ l = k := by simpa [Feature.canonical] using same
    exact ⟨w, hvw, rfl⟩
  | _ => simp [Feature.canonical] at same

theorem element {s : Source} {n : String} {k : Kind} (hf : (Feature.element s n k).Obeys .distinct)
    (h : Stems b P m (Feature.element s n k).key x) :
    ∃ (u : Source) (l : Kind) (o : KeyedMap Source S),
      (Feature.element u n l).key = (Feature.element s n k).key ∧ u.canonical = s.canonical ∧ P o ∧
        b.elementSymbol o u n l = .ok x := by
  obtain ⟨g, o, hkey, same, ho, gives⟩ := h.canonical hf
  generalize hr : Except.ok x = r at gives
  cases gives with
  | @element u n' l =>
    obtain ⟨hsu, rfl⟩ : u.canonical = s.canonical ∧ n' = n := by simpa [Feature.canonical] using same
    exact ⟨u, l, o, hkey, hsu, ho, rfl⟩
  | _ => simp [Feature.canonical] at same

theorem expression {op : Operator} {args : List Feature} {t : Option Kind}
    (hf : (Feature.expression op args t).Obeys .distinct)
    (h : Stems b P m (Feature.expression op args t).key x) :
    ∃ (xs : List F) (ks : List Kind) (y : F), Remembered m args xs ∧
      b.expression op xs (op.resultKind ks t) = .ok y ∧
      x = (b.features.get? (.expression op args t)).getD y := by
  obtain ⟨g, o, hkey, same, -, gives⟩ := h.canonical hf
  generalize hr : Except.ok x = r at gives
  cases gives with
  | @expression op' args' t' xs hxs =>
    obtain ⟨rfl, hargs, rfl⟩ :
        op' = op ∧ canonicalFeatures args' = canonicalFeatures args ∧ t' = t := by
      simpa [Feature.canonical] using same
    have provided : b.features.get? (.expression op' args' t')
        = b.features.get? (.expression op' args t') := KeyedMap.get?_congr _ hkey
    obtain ⟨y, hy, rfl⟩ := map_eq_ok.1 hr.symm
    rw [provided]
    exact ⟨xs, Feature.kinds args', y, hxs.congr hargs, by simpa [Feature.kind] using hy, rfl⟩
  | _ => simp [Feature.canonical] at same

theorem window {fn : Feature} {ps : List Feature} {os : List OrderTerm} {fr : Option Frame}
    (hf : (Feature.window fn ps os fr).Obeys .distinct)
    (h : Stems b P m (Feature.window fn ps os fr).key x) :
    ∃ (y : F) (xs : List F) (ys : List (OrderSymbol F)) (fr' : Option Frame) (z : F),
      Remembers m fn.key y ∧ Remembered m ps xs ∧ RememberedTerms m os ys ∧
      fr'.map Frame.canonical = fr.map Frame.canonical ∧ b.window y xs ys fr' = .ok z ∧
      x = (b.features.get? (.window fn ps os fr)).getD z := by
  obtain ⟨g, o, hkey, same, -, gives⟩ := h.canonical hf
  generalize hr : Except.ok x = r at gives
  cases gives with
  | @window fn' ps' os' fr' y xs ys hy hxs hys =>
    obtain ⟨hfn, hps, hos, hfr⟩ : fn'.canonical = fn.canonical ∧
        canonicalFeatures ps' = canonicalFeatures ps ∧ canonicalTerms os' = canonicalTerms os ∧
        fr'.map Frame.canonical = fr.map Frame.canonical := by
      simpa [Feature.canonical] using same
    have provided : b.features.get? (.window fn' ps' os' fr')
        = b.features.get? (.window fn ps os fr) := KeyedMap.get?_congr _ hkey
    have hkey : fn'.key = fn.key := by rw [← fn'.key_canonical, hfn, fn.key_canonical]
    obtain ⟨z, hz, rfl⟩ := map_eq_ok.1 hr.symm
    rw [provided]
    exact ⟨y, xs, ys, fr', z, hkey ▸ hy, hxs.congr hps, hys.congr hos, hfr, hz, rfl⟩
  | _ => simp [Feature.canonical] at same

end Stems

end QueryAlgebra.Translation
