import QueryAlgebra.Proofs.Translation.Readings
import QueryAlgebra.Proofs.Translation.Ready
import QueryAlgebra.Proofs.Translation.Memo
import Mathlib.Data.List.Forall2

/-!
# What translations keep

A translation may end in a fault halfway, and what it has remembered until then stays. So what is
known of a translator that has worked before must hold after every node, also of failed translations.

* `Remembers`, `Bench.Extends`: what is remembered, and that all of it stays.
* `Backend.Gives`: what a node gives for the symbols that are remembered for its parts.
* `Invariant`: what holds of the memo, of the origins, of sources and their symbols, and of faults.
* `Invariant.KeptBy`: the nodes of features of a sort keep an invariant; `Invariant.KeptBy.recalls`: so do
  these features.
* `Invariant.Lawful`: every node keeps an invariant.
* `Invariant.Lawful.recalls`, `Invariant.Lawful.source_outcome`: so do whole trees.
-/

namespace QueryAlgebra.Translation

variable {S F α β : Type}

/-! ### Trees -/

/-- All nodes of the tree keep the rules. -/
def Tree.Obeys (p : Rules) : Tree → Prop
  | .source s  => s.Obeys p
  | .feature f => f.Obeys p

/-- A tree that keeps rules keeps weaker ones. -/
theorem Tree.Obeys.mono {p q : Rules} (w : p.Implies q) {tree : Tree} (h : tree.Obeys p) :
    tree.Obeys q := by
  cases tree with
  | source s => exact Source.Obeys.mono w s h
  | feature f => exact Feature.Obeys.mono w f h

/-- Every tree keeps rules that ask nothing. -/
theorem Tree.obeys_none : ∀ tree : Tree, tree.Obeys .none
  | .source s  => s.obeys_none
  | .feature f => f.obeys_none

/-- The tree is one that the constructors give. -/
def Tree.Built : Tree → Prop
  | .source s  => s.Built
  | .feature f => f.Built

/-- A built tree that keeps rules keeps those that constructors then ensure. -/
theorem Tree.Built.obeys {p q : Rules} (w : p.Ensures q) {tree : Tree} (hb : tree.Built)
    (h : tree.Obeys p) : tree.Obeys q := by
  cases tree with
  | source s => exact Source.Built.obeys w s hb h
  | feature f => exact Feature.Built.obeys w f hb h

/-! ### Memos -/

/-- The symbol is remembered under the key. -/
def Remembers (m : List (String × F)) (k : String) (x : F) : Prop :=
  Assoc.find? (k == ·) m = some x

/-- The symbols are those remembered for the features. -/
def Remembered (m : List (String × F)) (fs : List Feature) (xs : List F) : Prop :=
  List.Forall₂ (fun f x => Remembers m f.key x) fs xs

/-- The symbols are those remembered for the features to order by, with their directions. -/
def RememberedTerms (m : List (String × F)) (os : List OrderTerm) (ys : List (OrderSymbol F)) :
    Prop :=
  List.Forall₂ (fun o y => Remembers m o.feature.key y.1 ∧ y.2 = o.direction) os ys

/-- Where a list of features is remembered, so is each of them. -/
theorem Remembered.each {m : List (String × F)} {fs : List Feature} {xs : List F}
    (h : Remembered m fs xs) : ∀ f ∈ fs, ∃ x, Remembers m f.key x := by
  unfold Remembered at h
  induction h with
  | nil => simp
  | cons hx _ ih => exact List.forall_mem_cons.2 ⟨⟨_, hx⟩, ih⟩

theorem RememberedTerms.each {m : List (String × F)} {os : List OrderTerm}
    {ys : List (OrderSymbol F)} (h : RememberedTerms m os ys) :
    ∀ o ∈ os, ∃ x, Remembers m o.feature.key x := by
  unfold RememberedTerms at h
  induction h with
  | nil => simp
  | cons hy _ ih => exact List.forall_mem_cons.2 ⟨⟨_, hy.1⟩, ih⟩

/-- All that the one bench remembers the other one remembers as well. -/
def Bench.Extends (w w' : Bench S F) : Prop :=
  ∀ k x, Remembers w.memo k x → Remembers w'.memo k x

namespace Bench.Extends

variable {w w' w'' : Bench S F}

theorem refl (w : Bench S F) : w.Extends w := fun _ _ h => h

theorem of_memo (h : w'.memo = w.memo) : w.Extends w' := fun _ _ hk => h ▸ hk

theorem trans (h : w.Extends w') (h' : w'.Extends w'') : w.Extends w'' :=
  fun k x hk => h' k x (h k x hk)

theorem remembered (h : w.Extends w') {fs : List Feature} {xs : List F}
    (hm : Remembered w.memo fs xs) : Remembered w'.memo fs xs :=
  hm.imp fun _ _ hk => h _ _ hk

theorem terms (h : w.Extends w') {os : List OrderTerm} {ys : List (OrderSymbol F)}
    (hm : RememberedTerms w.memo os ys) : RememberedTerms w'.memo os ys :=
  hm.imp fun _ _ hk => ⟨h _ _ hk.1, hk.2⟩

end Bench.Extends

theorem remembers_put (m : List (String × F)) (k : String) (x : F) :
    Remembers (Assoc.put (· == ·) k x m) k x := by
  simp [Remembers, Assoc.find?_put_self]

/-! ### Steps of translations -/

/-- A join registers its condition and goes on with its sides. -/
theorem eval_directSource_join (b : Backend S F) (l r : Source) (k : JoinType) (c : Option Feature) (w : Bench S F) :
    eval (directSource b (.join l r k c)) w = eval (do
      let left ← directSource b l
      let right ← directSource b r
      let condition ← directOption b c
      directReplacedSource b (.join l r k c) (b.join left right condition k))
      { w with tables := w.tables.filterBy c } := by
  cases c <;> rfl

/-- The symbol provided for a node takes the place of its own one, which is noted. -/
theorem eval_directReplaced (b : Backend S F) (f : Feature) (x : F) (w : Bench S F) :
    ∃ notes, eval (directReplaced b f x) w
      = (.ok ((b.features.get? f).getD x), { w with notes := notes }) := by
  unfold directReplaced
  cases b.features.get? f with
  | none => exact ⟨w.notes, rfl⟩
  | some y => exact ⟨_, rfl⟩

theorem eval_directReplacedSource (b : Backend S F) (s : Source) (x : S) (w : Bench S F) :
    ∃ notes, eval (directReplacedSource b s x) w
      = (.ok ((b.sources.get? s).getD x), { w with notes := notes }) := by
  unfold directReplacedSource
  cases b.sources.get? s with
  | none => exact ⟨w.notes, rfl⟩
  | some y => exact ⟨_, rfl⟩

/-! ### What a node gives -/

/-- What an element gives. -/
def Backend.elementSymbol (b : Backend S F) (o : KeyedMap Source S) (s : Source) (n : String)
    (k : Kind) : Except Fault F :=
  match b.features.get? (.element s n k) with
  | some x => .ok x
  | none   => (b.origin o s).map fun x => b.element x s n

theorem eval_directElement (b : Backend S F) (s : Source) (n : String) (k : Kind)
    (w : Bench S F) : eval (directElement b s n k) w = (b.elementSymbol w.origins s n k, w) := by
  unfold directElement Backend.elementSymbol
  cases b.features.get? (.element s n k) with
  | some x => rfl
  | none =>
    simp only [eval_bind, directOrigin, eval_get, andThen_ok, Backend.origin]
    cases w.origins.get? s with
    | some y => rfl
    | none =>
      cases s with
      | table t =>
        dsimp only
        cases b.table t (b.sources.get? (.table t)) <;> rfl
      | _ =>
        dsimp only
        cases b.sources.get? _ <;> rfl

/-- What a node gives for the symbols that are remembered for its parts, given what was visited. -/
inductive Backend.Gives (b : Backend S F) (m : List (String × F)) (o : KeyedMap Source S) :
    Feature → Except Fault F → Prop where
  | aliased {f : Feature} {n : String} {x : F} (h : Remembers m f.key x) :
    Gives b m o (.aliased f n) (.ok (b.aliased x n))
  | literal {v : Value} {k : Kind} : Gives b m o (.literal v k) (b.literal v k)
  | element {s : Source} {n : String} {k : Kind} :
    Gives b m o (.element s n k) (b.elementSymbol o s n k)
  | expression {op : Operator} {args : List Feature} {t : Option Kind} {xs : List F}
      (h : Remembered m args xs) :
    Gives b m o (.expression op args t)
      ((b.expression op xs (Feature.expression op args t).kind).map
        (b.features.get? (.expression op args t)).getD)
  | window {fn : Feature} {ps : List Feature} {os : List OrderTerm} {fr : Option Frame} {x : F}
      {xs : List F} {ys : List (OrderSymbol F)} (hfn : Remembers m fn.key x)
      (hps : Remembered m ps xs) (hos : RememberedTerms m os ys) :
    Gives b m o (.window fn ps os fr)
      ((b.window x xs ys fr).map (b.features.get? (.window fn ps os fr)).getD)

/-! ### Invariants -/

/-- What is known of a translator that has worked before: the rules that all trees keep, what holds
of the memo and of the origins, of sources and their symbols, and of faults. -/
structure Invariant (S F : Type) where
  rules   : Rules
  memo    : List (String × F) → Prop
  origins : KeyedMap Source S → Prop
  source  : Source → S → Prop
  fault   : Fault → Prop

namespace Invariant

/-- The invariant holds of a bench. -/
structure Holds (I : Invariant S F) (w : Bench S F) : Prop where
  memo    : I.memo w.memo
  origins : I.origins w.origins
  tables  : w.tables.Sound (Feature.Obeys I.rules)

/-- Every node keeps the invariant. -/
structure Lawful (I : Invariant S F) (b : Backend S F) : Prop where
  selected   : I.rules.Selected
  connective : ∀ op ∈ connectives, ∀ f g, f.bare = f → g.bare = g →
    I.rules.feature (.expression op [f, g] none)
  nowhere    : I.origins .empty
  /-- What a node gives may be remembered, when it is not yet. -/
  put : ∀ {f m o x}, f.Obeys I.rules → I.memo m → I.origins o →
    (∀ c ∈ f.children, ∃ y, Remembers m c.key y) → (∀ y, ¬Remembers m f.key y) →
    b.Gives m o f (.ok x) →
    I.memo (Assoc.put (· == ·) f.key x m)
  refused : ∀ {f m o e}, f.Obeys I.rules → I.memo m → I.origins o → b.Gives m o f (.error e) →
    I.fault e
  table : ∀ {t x}, (Source.table t).Obeys I.rules → b.table t (b.sources.get? (.table t)) = .ok x →
    (∀ o, I.origins o → I.origins (o.set (.table t) x)) ∧
      ∀ xs y, I.source (.table t) (b.scan x xs y)
  noTable : ∀ {t e}, b.table t (b.sources.get? (.table t)) = .error e → I.fault e
  reference : ∀ {s n x}, (Source.reference s n).Obeys I.rules → I.source s x →
    (∀ o, I.origins o → I.origins (o.set (.reference s n) (b.reference x n).2)) ∧
      I.source (.reference s n) (b.reference x n).1
  join : ∀ {l r k c m x y z}, (Source.join l r k c).Obeys I.rules → I.memo m → I.source l x →
    I.source r y → Remembered m c.toList z.toList →
    I.source (.join l r k c) ((b.sources.get? (.join l r k c)).getD (b.join x y z k))
  set : ∀ {l r k x y}, (Source.set l r k).Obeys I.rules → I.source l x → I.source r y →
    I.source (.set l r k) ((b.sources.get? (.set l r k)).getD (b.set x y k))
  query : ∀ {s sel pre grp post ord rows m x xs y ys z zs},
    (Source.query s sel pre grp post ord rows).Obeys I.rules → I.memo m → I.source s x →
    Remembered m (Source.query s sel pre grp post ord rows).features xs →
    Remembered m pre.toList y.toList → Remembered m grp ys → Remembered m post.toList z.toList →
    RememberedTerms m ord zs →
    I.source (.query s sel pre grp post ord rows)
      ((b.sources.get? (.query s sel pre grp post ord rows)).getD (b.query x xs y ys z zs rows))

/-- A computation keeps the invariant and all that is remembered; `post` holds of what it gives. -/
structure Outcome (I : Invariant S F) (w : Bench S F) (post : α → Bench S F → Prop)
    (p : Except Fault α × Bench S F) : Prop where
  holds   : I.Holds p.2
  stays   : w.Extends p.2
  ok      : ∀ x, p.1 = .ok x → post x p.2
  fault   : ∀ e, p.1 = .error e → I.fault e

section

variable {I : Invariant S F} {b : Backend S F} {w : Bench S F}

theorem Outcome.of_ok {post : α → Bench S F → Prop} {x : α} {w' : Bench S F} (hI : I.Holds w')
    (stays : w.Extends w') (h : post x w') : I.Outcome w post (.ok x, w') :=
  ⟨hI, stays, fun _ hx => Except.ok.inj hx ▸ h, fun _ he => (nomatch he)⟩

theorem Outcome.of_error {post : α → Bench S F → Prop} {e : Fault} (hI : I.Holds w)
    (h : I.fault e) : I.Outcome w post (.error e, w) :=
  ⟨hI, .refl w, fun _ hx => (nomatch hx), fun _ he => Except.error.inj he ▸ h⟩

/-- Of two computations in turn, the second begins with what holds behind the first. -/
theorem Outcome.andThen {post : α → Bench S F → Prop} {post' : β → Bench S F → Prop}
    {p : Except Fault α × Bench S F} {k : α → Bench S F → Except Fault β × Bench S F}
    (h : I.Outcome w post p)
    (hk : ∀ x w', I.Holds w' → w.Extends w' → post x w' → I.Outcome w' post' (k x w')) :
    I.Outcome w post' (Translation.andThen p k) := by
  obtain ⟨_ | x, w'⟩ := p
  · exact ⟨h.holds, h.stays, fun _ hx => (nomatch hx),
      fun e he => h.fault e (Except.error.inj he ▸ rfl)⟩
  · have hk := hk x w' h.holds h.stays (h.ok x rfl)
    exact ⟨hk.holds, h.stays.trans hk.stays, hk.ok, hk.fault⟩

theorem Outcome.settle {P : α → Bench S F → Prop} (hI : I.Holds w) {r : Except Fault α}
    (ok : ∀ x, r = .ok x → P x w) (fault : ∀ e, r = .error e → I.fault e) :
    I.Outcome w P (eval (Direct.settle r) w) := by
  cases r with
  | ok x => exact .of_ok hI (.refl w) (ok x rfl)
  | error e => exact .of_error hI (fault e rfl)

/-- Notes do not matter for an invariant. -/
theorem Holds.noted (hI : I.Holds w) (notes : List Note) :
    I.Holds { w with notes := notes } := ⟨hI.memo, hI.origins, hI.tables⟩

theorem Outcome.replacedSource {s : Source} {x : S} (hI : I.Holds w)
    (h : I.source s ((b.sources.get? s).getD x)) :
    I.Outcome w (fun y _ => I.source s y) (eval (directReplacedSource b s x) w) := by
  obtain ⟨notes, replaced⟩ := eval_directReplacedSource b s x w
  rw [replaced]
  exact .of_ok (hI.noted notes) (.of_memo rfl) h

/-- A scope of its own is left with what holds of the scope around it. -/
theorem Outcome.scope {d : Direct S F α} {P : α → Bench S F → Prop} (hI : I.Holds w)
    (h : I.Outcome w.inner P (eval d w.inner)) :
    I.Outcome w (fun x w' => ∃ v, w' = v.leave w ∧ P x v) (eval d.scope w) :=
  ⟨⟨h.holds.memo, hI.origins, hI.tables⟩, h.stays, fun x hx => ⟨_, rfl, h.ok x hx⟩, h.fault⟩

/-- Only the memo at the beginning matters. -/
theorem Outcome.of_start {post : α → Bench S F → Prop} {v : Bench S F}
    {p : Except Fault α × Bench S F} (h : I.Outcome v post p) (hv : v.memo = w.memo) :
    I.Outcome w post p :=
  ⟨h.holds, fun k x hk => h.stays k x (hv ▸ hk), h.ok, h.fault⟩

/-! ### Features -/

/-- Recalling a feature keeps the invariant, and what it gives is remembered. -/
def Recalls (I : Invariant S F) (b : Backend S F) (f : Feature) : Prop :=
  ∀ w, I.Holds w →
    I.Outcome w (fun x w' => Remembers w'.memo f.key x)
      (eval (Direct.recall f.key (directFeature b f)) w)

theorem features_outcome : ∀ {fs : List Feature}, (∀ f ∈ fs, I.Recalls b f) →
    ∀ {w : Bench S F}, I.Holds w →
    I.Outcome w (fun xs w' => Remembered w'.memo fs xs) (eval (directFeatures b fs) w)
  | [], _, w, hI => .of_ok hI (.refl w) .nil
  | f :: r, h, w, hI => by
    obtain ⟨hf, hr⟩ := List.forall_mem_cons.1 h
    simp only [directFeatures, eval_bind]
    exact (hf w hI).andThen fun x w₁ h₁ _ hx =>
      (features_outcome hr h₁).andThen fun xs w₂ h₂ stays hxs =>
        .of_ok h₂ (.refl _) (.cons (stays _ _ hx) hxs)

theorem terms_outcome : ∀ {os : List OrderTerm}, (∀ o ∈ os, I.Recalls b o.feature) →
    ∀ {w : Bench S F}, I.Holds w →
    I.Outcome w (fun ys w' => RememberedTerms w'.memo os ys) (eval (directTerms b os) w)
  | [], _, w, hI => .of_ok hI (.refl w) .nil
  | .by f d :: r, h, w, hI => by
    obtain ⟨hf, hr⟩ := List.forall_mem_cons.1 h
    simp only [directTerms, eval_bind]
    exact (hf w hI).andThen fun x w₁ h₁ _ hx =>
      (terms_outcome hr h₁).andThen fun ys w₂ h₂ stays hys =>
        .of_ok h₂ (.refl _) (.cons ⟨stays _ _ hx, rfl⟩ hys)

theorem option_outcome {c : Option Feature} (h : ∀ f ∈ c, I.Recalls b f) (hI : I.Holds w) :
    I.Outcome w (fun z w' => Remembered w'.memo c.toList z.toList) (eval (directOption b c) w) := by
  cases c with
  | none => exact .of_ok hI (.refl w) .nil
  | some f =>
    simp only [directOption, eval_bind]
    exact (h f rfl w hI).andThen fun x w₁ h₁ _ hx => .of_ok h₁ (.refl _) (.cons hx .nil)

/-- Features of a sort keep the invariant, together with their parts. -/
structure KeptBy (I : Invariant S F) (b : Backend S F) (P : Feature → Prop) : Prop where
  parts : ∀ {f}, P f → ∀ c ∈ f.children, P c
  put : ∀ {f m o x}, P f → I.memo m → I.origins o → (∀ c ∈ f.children, ∃ y, Remembers m c.key y) →
    (∀ y, ¬Remembers m f.key y) → b.Gives m o f (.ok x) → I.memo (Assoc.put (· == ·) f.key x m)
  refused : ∀ {f m o e}, P f → I.memo m → I.origins o → b.Gives m o f (.error e) → I.fault e

namespace KeptBy

variable {P : Feature → Prop} (hK : I.KeptBy b P)
include hK

/-- A feature whose parts are recalled gives what its node gives. -/
theorem feature_outcome {f : Feature} (hf : P f)
    (parts : ∀ c ∈ f.children, I.Recalls b c) (hI : I.Holds w) :
    I.Outcome w (fun x w' => b.Gives w'.memo w'.origins f (.ok x) ∧
      ∀ c ∈ f.children, ∃ y, Remembers w'.memo c.key y) (eval (directFeature b f) w) := by
  cases f with
  | aliased g n =>
    simp only [directFeature, eval_bind]
    exact (parts g (by simp [Feature.children]) w hI).andThen fun x w₁ h₁ _ hx =>
      .of_ok h₁ (.refl _) ⟨.aliased hx, by simpa [Feature.children] using ⟨x, hx⟩⟩
  | literal v k =>
    simp only [directFeature]
    exact .settle hI (fun x hx => ⟨hx ▸ .literal, by simp [Feature.children]⟩)
      fun e he => hK.refused hf hI.memo hI.origins (he ▸ .literal)
  | element s n k =>
    simp only [directFeature, eval_directElement]
    cases helement : b.elementSymbol w.origins s n k with
    | ok x => exact .of_ok hI (.refl w) ⟨helement ▸ .element, by simp [Feature.children]⟩
    | error e =>
      exact .of_error hI (hK.refused (m := w.memo) hf hI.memo hI.origins (helement ▸ .element))
  | expression op args t =>
    have parts : ∀ c ∈ args, I.Recalls b c := parts
    simp only [directFeature, eval_bind]
    refine (features_outcome parts hI).andThen fun xs w₁ h₁ _ hxs => ?_
    have gives : b.Gives w₁.memo w₁.origins (.expression op args t) _ := .expression hxs
    refine (Outcome.settle (P := fun y w' => w' = w₁ ∧ b.expression op xs _ = .ok y) h₁
      (fun y hy => ⟨rfl, hy⟩) fun e he => ?_).andThen fun y w₂ h₂ _ hy => ?_
    · rw [he] at gives
      exact hK.refused hf h₁.memo h₁.origins gives
    · obtain ⟨rfl, hy⟩ := hy
      obtain ⟨notes, replaced⟩ := eval_directReplaced b (.expression op args t) y w₂
      rw [replaced]
      rw [hy] at gives
      exact .of_ok (h₂.noted notes) (.of_memo rfl) ⟨gives, hxs.each⟩
  | window fn ps os fr =>
    simp only [directFeature, eval_bind]
    have hfn := parts fn (by simp [Feature.children])
    have hps : ∀ p ∈ ps, I.Recalls b p := fun p hp => parts p (by simp [Feature.children, hp])
    have hos : ∀ o ∈ os, I.Recalls b o.feature := fun o ho =>
      parts o.feature (List.mem_append_right _ (List.mem_map_of_mem ho))
    refine (hfn w hI).andThen fun x w₁ h₁ _ hx => (features_outcome hps h₁).andThen
      fun xs w₂ h₂ stays₂ hxs => (terms_outcome hos h₂).andThen fun ys w₃ h₃ stays₃ hys => ?_
    have hx := stays₃ _ _ (stays₂ _ _ hx)
    have hxs := stays₃.remembered hxs
    have gives : b.Gives w₃.memo w₃.origins (.window fn ps os fr) _ := .window hx hxs hys
    refine (Outcome.settle (P := fun z w' => w' = w₃ ∧ b.window x xs ys fr = .ok z) h₃
      (fun z hz => ⟨rfl, hz⟩) fun e he => ?_).andThen fun z w₄ h₄ _ hz => ?_
    · rw [he] at gives
      exact hK.refused hf h₃.memo h₃.origins gives
    · obtain ⟨rfl, hz⟩ := hz
      obtain ⟨notes, replaced⟩ := eval_directReplaced b (.window fn ps os fr) z w₄
      rw [replaced]
      rw [hz] at gives
      refine .of_ok (h₄.noted notes) (.of_memo rfl) ⟨gives, fun c hc => ?_⟩
      rcases List.mem_cons.1 hc with rfl | hc
      · exact ⟨x, hx⟩
      · rcases List.mem_append.1 hc with hc | hc
        · exact hxs.each c hc
        · obtain ⟨o, ho, rfl⟩ := List.mem_map.1 hc
          exact hys.each o ho

/-- **Recalling a feature keeps the invariant**, and what it gives is remembered. -/
theorem recalls : ∀ f : Feature, P f → I.Recalls b f := by
  refine Feature.childInduction fun f ih hf w hI => ?_
  have parts : ∀ c ∈ f.children, I.Recalls b c := fun c hc => ih c hc (hK.parts hf c hc)
  unfold Direct.recall
  simp only [eval_bind, eval_get, andThen_ok]
  cases hmemo : Assoc.find? (f.key == ·) w.memo with
  | some x => exact .of_ok hI (.refl w) hmemo
  | none =>
    simp only [eval_bind]
    have h := hK.feature_outcome hf parts hI
    rcases heval : eval (directFeature b f) w with ⟨e | x, w'⟩ <;> rw [heval] at h
    · exact ⟨h.holds, h.stays, fun _ hx => (nomatch hx),
        fun e he => h.fault e (Except.error.inj he ▸ rfl)⟩
    · obtain ⟨gives, known⟩ := h.ok x rfl
      have remembered := remembers_put w'.memo f.key x
      have new : ∀ y, ¬Remembers w'.memo f.key y := by
        intro y hy
        have adds := directFeature_adds b f w f.key
        rw [heval, hmemo] at adds
        exact absurd (adds (Option.isSome_iff_exists.2 ⟨y, hy⟩)) (by simp)
      refine ⟨⟨hK.put hf h.holds.memo h.holds.origins known new gives, h.holds.origins,
        h.holds.tables⟩, fun k y hk => ?_, fun y hy => Except.ok.inj hy ▸ remembered,
        fun _ he => (nomatch he)⟩
      have hne : k ≠ f.key := by
        rintro rfl
        exact absurd (hmemo.symm.trans hk) (by simp)
      show Remembers (Assoc.put (· == ·) f.key x w'.memo) k y
      unfold Remembers
      rw [Assoc.find?_put_of_ne _ _ hne]
      exact h.stays k y hk

end KeptBy

namespace Lawful

variable (hL : I.Lawful b)
include hL

/-- Features that keep the rules keep a lawful invariant. -/
theorem keptBy : I.KeptBy b (Feature.Obeys I.rules) where
  parts hf := hf.children
  put := hL.put
  refused := hL.refused

/-- A feature whose parts are recalled gives what its node gives. -/
theorem feature_outcome {f : Feature} (hf : f.Obeys I.rules)
    (parts : ∀ c ∈ f.children, I.Recalls b c) (hI : I.Holds w) :
    I.Outcome w (fun x w' => b.Gives w'.memo w'.origins f (.ok x) ∧
      ∀ c ∈ f.children, ∃ y, Remembers w'.memo c.key y) (eval (directFeature b f) w) :=
  hL.keptBy.feature_outcome hf parts hI

theorem recalls (f : Feature) (hf : f.Obeys I.rules) : I.Recalls b f := hL.keptBy.recalls f hf

/-! ### Sources -/

/-- What keeps the rules passes on to direct parts, and to the whole from both sides of a
connective. -/
theorem inherited : Inherited (Feature.Obeys I.rules) where
  down _ h c hc := h.children c hc
  pair op hop f g bf bg hf hg := ⟨hL.connective op hop f g bf bg, hf, hg, trivial⟩

theorem features {fs : List Feature} (h : ∀ f ∈ fs, f.Obeys I.rules) (hI : I.Holds w) :
    I.Outcome w (fun xs w' => Remembered w'.memo fs xs) (eval (directFeatures b fs) w) :=
  features_outcome (fun f hf => hL.recalls f (h f hf)) hI

theorem terms {os : List OrderTerm} (h : ∀ o ∈ os, o.feature.Obeys I.rules) (hI : I.Holds w) :
    I.Outcome w (fun ys w' => RememberedTerms w'.memo os ys) (eval (directTerms b os) w) :=
  terms_outcome (fun o ho => hL.recalls o.feature (h o ho)) hI

theorem option {c : Option Feature} (h : ∀ f ∈ c, f.Obeys I.rules) (hI : I.Holds w) :
    I.Outcome w (fun z w' => Remembered w'.memo c.toList z.toList) (eval (directOption b c) w) :=
  option_outcome (fun f hf => hL.recalls f (h f hf)) hI

theorem table_outcome {t : Schema} (ht : (Source.table t).Obeys I.rules) (hI : I.Holds w) :
    I.Outcome w (fun x _ => I.source (.table t) x) (eval (directTable b t) w) := by
  simp only [directTable, eval_bind]
  refine (Outcome.settle (P := fun x w' => w' = w ∧ b.table t _ = .ok x) hI
    (fun x hx => ⟨rfl, hx⟩) fun e he => hL.noTable he).andThen fun x w₁ h₁ _ hx => ?_
  obtain ⟨rfl, hx⟩ := hx
  obtain ⟨origins, symbol⟩ := hL.table ht hx
  simp only [Direct.setOrigin, Direct.modifyTables, eval_modify, andThen_ok, eval_get]
  have tables := h₁.tables.touch t
  have h₂ : I.Holds { w₁ with origins := w₁.origins.set (.table t) x, tables := w₁.tables.touch t } :=
    ⟨h₁.memo, origins _ h₁.origins, tables⟩
  refine .of_start ((hL.features (fun c hc => (tables.fields t c hc).2) h₂).andThen
    fun xs w₃ h₃ _ _ => (hL.option (hL.inherited.predicate tables t) h₃).andThen
      fun y w₄ h₄ _ _ => ?_) rfl
  exact .of_ok ⟨h₄.memo, h₄.origins, h₄.tables⟩ (.of_memo rfl) (symbol xs y)

/-- The condition of a join is registered before its sides are translated. -/
theorem filtered {c : Option Feature} (hc : ∀ f ∈ c, f.Obeys I.rules) (hI : I.Holds w) :
    I.Holds { w with tables := w.tables.filterBy c } :=
  ⟨hI.memo, hI.origins, hL.inherited.filterBy hI.tables hc⟩

section

variable {s : Source} {sel : List Feature} {pre : Option Feature} {grp : List Feature}
  {post : Option Feature} {ord : List OrderTerm} {rows : Option RowRange}
  (hs : (Source.query s sel pre grp post ord rows).Obeys I.rules)
include hs

/-- The scope of a statement begins with what its clauses register. -/
theorem begun (hI : I.Holds w) : I.Holds { w.inner with
    tables := registerClauses (Source.query s sel pre grp post ord rows).features pre grp post ord
      .empty } :=
  ⟨hI.memo, hL.nowhere, hL.inherited.registerClauses (hL.selected.features hs)
    hs.statement.prefilter hs.statement.grouping hs.statement.postfilter hs.statement.ordering⟩

theorem query_outcome (inner : ∀ {w : Bench S F}, I.Holds w →
    I.Outcome w (fun x _ => I.source s x) (eval (directSource b s) w)) (hI : I.Holds w) :
    I.Outcome w (fun x _ => I.source (.query s sel pre grp post ord rows) x)
      (eval (directSource b (.query s sel pre grp post ord rows)) w) := by
  have clauses := hs.statement
  simp only [directSource, eval_bind]
  refine (Outcome.scope (P := fun x _ => I.source (.query s sel pre grp post ord rows)
    ((b.sources.get? (.query s sel pre grp post ord rows)).getD x)) hI ?_).andThen
      fun x w₁ h₁ _ within => .replacedSource h₁ (within.elim fun _ made => made.2)
  simp only [eval_bind, Direct.modifyTables, eval_modify, andThen_ok]
  refine .of_start ((inner (hL.begun hs hI)).andThen fun x w₁ h₁ _ hx =>
    (hL.features (hL.selected.features hs) h₁).andThen fun xs w₂ h₂ _ hxs =>
    (hL.option clauses.prefilter h₂).andThen fun y w₃ h₃ s₃ hy =>
    (hL.features clauses.grouping h₃).andThen fun ys w₄ h₄ s₄ hys =>
    (hL.option clauses.postfilter h₄).andThen fun z w₅ h₅ s₅ hz =>
    (hL.terms clauses.ordering h₅).andThen fun zs w₆ h₆ s₆ hzs => ?_) rfl
  have hys := s₅.remembered hys
  exact .of_ok h₆ (.refl _) (hL.query hs h₆.memo hx
    ((((s₃.trans s₄).trans s₅).trans s₆).remembered hxs)
    (((s₄.trans s₅).trans s₆).remembered hy) (s₆.remembered hys) (s₆.remembered hz) hzs)

end

/-- **Translating a source keeps the invariant.** -/
theorem source_outcome : ∀ (s : Source), s.Obeys I.rules → ∀ {w : Bench S F}, I.Holds w →
    I.Outcome w (fun x _ => I.source s x) (eval (directSource b s) w)
  | .table t, hs, w, hI => by
    simp only [directSource]
    exact hL.table_outcome hs hI
  | .reference s n, hs, w, hI => by
    simp only [directSource, eval_bind]
    refine (source_outcome s hs.2 hI).andThen fun x w₁ h₁ _ hx => ?_
    obtain ⟨origins, symbol⟩ := hL.reference hs hx
    exact .of_ok ⟨h₁.memo, origins _ h₁.origins, h₁.tables⟩ (.of_memo rfl) symbol
  | .join l r k c, hs, w, hI => by
    obtain ⟨_, hl, hr, hc⟩ := id hs
    have hc := optionObeys_iff.1 hc
    rw [eval_directSource_join]
    simp only [eval_bind]
    exact .of_start ((source_outcome l hl (hL.filtered hc hI)).andThen fun x w₁ h₁ _ hx =>
      (source_outcome r hr h₁).andThen fun y w₂ h₂ _ hy =>
        (hL.option hc h₂).andThen fun z w₃ h₃ _ hz =>
          .replacedSource h₃ (hL.join hs h₃.memo hx hy hz)) rfl
  | .set l r k, hs, w, hI => by
    obtain ⟨_, hl, hr⟩ := id hs
    simp only [directSource, eval_bind]
    exact (source_outcome l hl hI).andThen fun x w₁ h₁ _ hx =>
      (source_outcome r hr h₁).andThen fun y w₂ h₂ _ hy =>
        .replacedSource h₂ (hL.set hs hx hy)
  | .query s sel pre grp post ord rows, hs, w, hI =>
    hL.query_outcome hs (fun h => source_outcome s hs.2.1 h) hI

end Lawful

end

end Invariant

end QueryAlgebra.Translation
