import QueryAlgebra.Proofs.Translation.Resolution

/-!
# Translators that have worked before

A translator keeps what it has remembered, and what its outermost scope has read and visited, from one
translation to the next, also when a translation fails.

* `Translator.after`: a translator behind a list of whole translations.
* `Translator.serve_remembered`: asked for a symbol that it remembers, it gives it.
* `Invariant.Lawful.after_holds`: every lawful invariant holds of it, and its stacks are empty.
* `Invariant.KeptBy.finished`, `Invariant.KeptBy.recalled`: what is known of a feature that it translates.
* `Sees.of_closed`: what is in sight of it.
* `Records`, `directFeature_records`: features leave all but what is remembered and noted.
* `Keeps`, `directFeature_keeps`: what is remembered stays so.
* `directSource_visits`: behind a source all references in its scope are visited, and stay so:
  `Translator.after_visited`.
-/

namespace QueryAlgebra.Translation

variable {S F α β : Type}

/-- A translator behind whole translations, some of which may have failed. -/
def Translator.after (t : Translator S F) (history : List Tree) : Translator S F :=
  history.foldl (fun t tree => (t.serve (.finish tree)).2) t

/-- What is remembered is recalled, and nothing else happens. -/
theorem eval_recall {key : String} {d : Direct S F F} {w : Bench S F} {x : F}
    (h : Remembers w.memo key x) : eval (Direct.recall key d) w = (.ok x, w) := by
  unfold Direct.recall
  simp only [eval_bind, eval_get, andThen_ok]
  rw [h]
  rfl

/-- Asked for a symbol that it remembers, a translator gives it. -/
theorem Translator.serve_remembered {t : Translator S F} {f : Feature} {x : F}
    (h : Remembers t.state.memo f.key x) :
    t.serve (.symbolOf (.feature f)) = (.ok (some (.feature x)), t.cleared) := by
  rw [t.serve_symbolOf_feature, eval_recall (show Remembers t.cleared.state.bench.memo f.key x from h)]
  rfl

/-! ### Invariants -/

namespace Invariant

variable {I : Invariant S F} {b : Backend S F}

/-- **What every tree of a history keeps holds behind all of them**, and the stacks stay empty. -/
theorem holds_after : ∀ {history : List Tree},
    (∀ tree ∈ history, ∀ w, I.Holds w → I.Holds (eval (directFinish b tree) w).2) →
    ∀ {t : Translator S F}, t.backend = b → t.state.Clean → I.Holds t.state.bench →
    (t.after history).backend = b ∧ (t.after history).state.Clean ∧
      I.Holds (t.after history).state.bench
  | [], _, _, hb, clean, hI => ⟨hb, clean, hI⟩
  | tree :: r, h, t, hb, clean, hI => by
    obtain ⟨htree, hr⟩ := List.forall_mem_cons.1 h
    have served := t.serve_finish clean tree
    have begun : I.Holds t.cleared.state.bench := ⟨hI.memo, hI.origins, hI.tables⟩
    refine holds_after hr (t := (t.serve (.finish tree)).2) ?_ ?_ ?_
    · rw [served]; exact hb
    · rw [served]; exact clean
    · rw [served, hb]; exact htree _ begun

/-- Finishing a feature of a sort keeps an invariant that such features keep. -/
theorem KeptBy.finish_holds {P : Feature → Prop} (hK : I.KeptBy b P) {f : Feature} (hf : P f)
    {w : Bench S F} (hI : I.Holds w) : I.Holds (eval (directFinish b (.feature f)) w).2 := by
  rw [eval_directFinish_feature]
  exact (hK.feature_outcome hf (fun c hc => hK.recalls c (hK.parts hf c hc)) hI).holds

section

variable {P : Feature → Prop} (hK : I.KeptBy b P) {t t' : Translator S F} (hb : t.backend = b)
  (clean : t.state.Clean) (hI : I.Holds t.state.bench) {f : Feature} (hf : P f) {x : F}
include hK hb clean hI hf

/-- **What is known of a feature that was finished**: a node gave its symbol, for the symbols that are
remembered for its parts. -/
theorem KeptBy.finished (made : t.serve (.finish (.feature f)) = (.ok (some (.feature x)), t')) :
    t'.backend = b ∧ t'.state.Clean ∧ I.Holds t'.state.bench ∧
      b.Gives t'.state.memo t'.state.bench.origins f (.ok x) := by
  have outcome := hK.feature_outcome hf (fun c hc => hK.recalls c (hK.parts hf c hc))
    (⟨hI.memo, hI.origins, hI.tables⟩ : I.Holds t.cleared.state.bench)
  rw [t.serve_finish clean, hb, eval_directFinish_feature] at made
  rcases run : eval (directFeature b f) _ with ⟨_ | y, w⟩ <;> rw [run] at made outcome
  · cases (Prod.mk.inj made).1
  · obtain ⟨given, rfl⟩ := Prod.mk.inj made
    obtain rfl : y = x := by simpa [Except.map] using given
    exact ⟨rfl, clean, outcome.holds, (outcome.ok y rfl).1⟩

/-- What is known of a feature whose symbol was asked for: it is remembered. -/
theorem KeptBy.recalled (made : t.serve (.symbolOf (.feature f)) = (.ok (some (.feature x)), t')) :
    t'.backend = b ∧ t'.state.Clean ∧ I.Holds t'.state.bench ∧ Remembers t'.state.memo f.key x := by
  have outcome := hK.recalls f hf _ (⟨hI.memo, hI.origins, hI.tables⟩ : I.Holds t.cleared.state.bench)
  rw [t.serve_symbolOf_feature, hb] at made
  rcases run : eval (Direct.recall f.key (directFeature b f)) _ with ⟨_ | y, w⟩ <;>
    rw [run] at made outcome
  · cases (Prod.mk.inj made).1
  · obtain ⟨given, rfl⟩ := Prod.mk.inj made
    obtain rfl : y = x := by simpa [Except.map] using given
    exact ⟨rfl, clean, outcome.holds, outcome.ok y rfl⟩

end

namespace Lawful

variable (hL : I.Lawful b)
include hL

theorem finish_holds {tree : Tree} (h : tree.Obeys I.rules) {w : Bench S F} (hI : I.Holds w) :
    I.Holds (eval (directFinish b tree) w).2 := by
  cases tree with
  | source s =>
    obtain ⟨notes, finished⟩ := eval_directFinish_source b s w
    rw [finished]
    exact (hL.source_outcome s h hI).holds.noted notes
  | feature f => exact hL.keptBy.finish_holds h hI

/-- **Whole translations keep an invariant**, and the stacks stay empty. -/
theorem after_holds {history : List Tree} (h : ∀ tree ∈ history, tree.Obeys I.rules)
    {t : Translator S F} (hb : t.backend = b) (clean : t.state.Clean) (hI : I.Holds t.state.bench) :
    (t.after history).backend = b ∧ (t.after history).state.Clean ∧
      I.Holds (t.after history).state.bench :=
  holds_after (fun tree ht _ => hL.finish_holds (h tree ht)) hb clean hI

end Lawful

end Invariant

/-! ### What is in sight -/

/-- Where a feature is remembered, so are the elements inside it. -/
def closedMemo (S F : Type) : Invariant S F where
  rules := .distinct
  memo m := ∀ f : Feature, f.Obeys .distinct → (∃ x, Remembers m f.key x) →
    ∀ k ∈ f.elementKeys, ∃ y, Remembers m k y
  origins _ := True
  source _ _ := True
  fault _ := True

theorem closedMemo_lawful (b : Backend S F) : (closedMemo S F).Lawful b where
  selected := Rules.selected_of_element fun _ _ _ => trivial
  connective _ _ _ _ _ _ := nofun
  nowhere := trivial
  put := by
    intro f m o x hf hm _ known _ _ g hg hknown k hk
    have later : ∀ l, (∃ y, Remembers m l y) →
        ∃ y, Remembers (Assoc.put (· == ·) f.key x m) l y := by
      rintro l ⟨y, hy⟩
      by_cases hl : l = f.key
      · exact ⟨x, hl ▸ remembers_put m f.key x⟩
      · exact ⟨y, by unfold Remembers; rwa [Assoc.find?_put_of_ne _ _ hl]⟩
    by_cases hkey : g.key = f.key
    · -- What is put is an element itself, or its parts are remembered.
      rw [Feature.elementKeys_eq_of_key hg hf hkey, Feature.elementKeys_eq] at hk
      split at hk
      · exact ⟨x, List.mem_singleton.1 hk ▸ remembers_put m f.key x⟩
      · obtain ⟨c, hc, hk⟩ := List.mem_flatMap.1 hk
        exact later k (hm c (hf.children c hc) (known c hc) k hk)
    · obtain ⟨y, hy⟩ := hknown
      rw [Remembers, Assoc.find?_put_of_ne _ _ hkey] at hy
      exact later k (hm g hg ⟨y, hy⟩ k hk)
  refused _ _ _ _ := trivial
  table _ _ := ⟨fun _ _ => trivial, fun _ _ => trivial⟩
  noTable _ := trivial
  reference _ _ := ⟨fun _ _ => trivial, trivial⟩
  join _ _ _ _ _ := trivial
  set _ _ _ := trivial
  query _ _ _ _ _ _ _ _ := trivial

/-- Whatever a bench holds is in sight, if it remembers elements where it remembers features. -/
theorem Sees.of_closed (g : Provided) {w : Bench S F} (h : (closedMemo S F).memo w.memo) :
    Sees g w w.tables (w.origins.keys ++ g.sources) (w.memo.map (·.1) ++ g.features) where
  tables := rfl
  visited s _ := by rw [w.origins.isSome_get?, List.mem_append]; rfl
  known k hk := (List.mem_append.1 hk).imp_left (KeyedMap.isSome_find? k w.memo).2
  provided := List.subset_append_right _ _
  closed f hf hk k hmem := by
    obtain ⟨y, hy⟩ := h f hf (Option.isSome_iff_exists.1 hk) k hmem
    exact List.mem_append_left _ ((KeyedMap.isSome_find? k w.memo).1 (by rw [hy]; rfl))

/-! ### What stays -/

/-- The computation changes nothing but what is remembered and noted. -/
def Records (d : Direct S F α) : Prop :=
  ∀ w, ∃ memo notes, (eval d w).2 = { w with memo := memo, notes := notes }

namespace Records

theorem bind {d : Direct S F α} {k : α → Direct S F β} (hd : Records d) (hk : ∀ a, Records (k a)) :
    Records (d >>= k) := by
  intro w
  obtain ⟨memo, notes, hw⟩ := hd w
  rw [eval_bind]
  rcases heval : eval d w with ⟨_ | a, v⟩ <;> rw [heval] at hw
  · exact ⟨memo, notes, hw⟩
  · obtain ⟨memo', notes', hv⟩ := hk a v
    obtain rfl : v = _ := hw
    exact ⟨memo', notes', hv⟩

theorem pure (a : α) : Records (Pure.pure a : Direct S F α) := fun w => ⟨w.memo, w.notes, rfl⟩

theorem settle (r : Except Fault α) : Records (Direct.settle r : Direct S F α) := by
  intro w
  cases r <;> exact ⟨w.memo, w.notes, rfl⟩

theorem recalled {key : String} {d : Direct S F F} (hd : Records d) :
    Records (Direct.recall key d) := by
  intro w
  unfold Direct.recall
  simp only [eval_bind, eval_get, andThen_ok]
  cases Assoc.find? (key == ·) w.memo with
  | some x => exact ⟨w.memo, w.notes, rfl⟩
  | none => exact (hd.bind fun x => .bind (fun v => ⟨_, v.notes, rfl⟩) fun _ => .pure x) w

theorem replaced (b : Backend S F) (f : Feature) (x : F) : Records (directReplaced b f x) := by
  intro w
  obtain ⟨notes, h⟩ := eval_directReplaced b f x w
  exact ⟨w.memo, notes, by rw [h]⟩

theorem replacedSource (b : Backend S F) (s : Source) (x : S) :
    Records (directReplacedSource b s x) := by
  intro w
  obtain ⟨notes, h⟩ := eval_directReplacedSource b s x w
  exact ⟨w.memo, notes, by rw [h]⟩

end Records

mutual

/-- **Translating features changes nothing but what is remembered and noted.** -/
theorem directFeature_records (b : Backend S F) : ∀ f : Feature, Records (directFeature b f)
  | .aliased f _ => by
    simp only [directFeature]
    exact (directFeature_records b f).recalled.bind fun x => .pure _
  | .literal v k => by
    simp only [directFeature]
    exact .settle _
  | .element s n k => by
    intro w
    exact ⟨w.memo, w.notes, by simp [directFeature, eval_directElement]⟩
  | .expression op args t => by
    simp only [directFeature]
    exact (directFeatures_records b args).bind fun xs => (Records.settle _).bind fun y =>
      .replaced b _ y
  | .window fn ps os fr => by
    simp only [directFeature]
    exact (directFeature_records b fn).recalled.bind fun x => (directFeatures_records b ps).bind
      fun xs => (directTerms_records b os).bind fun ys => (Records.settle _).bind fun z =>
        .replaced b _ z

theorem directFeatures_records (b : Backend S F) :
    ∀ fs : List Feature, Records (directFeatures b fs)
  | [] => .pure _
  | f :: r => by
    simp only [directFeatures]
    exact (directFeature_records b f).recalled.bind fun x => (directFeatures_records b r).bind
      fun xs => .pure _

theorem directTerms_records (b : Backend S F) : ∀ os : List OrderTerm, Records (directTerms b os)
  | [] => .pure _
  | .by f _ :: r => by
    simp only [directTerms]
    exact (directFeature_records b f).recalled.bind fun x => (directTerms_records b r).bind
      fun ys => .pure _

end

theorem directOption_records (b : Backend S F) (o : Option Feature) :
    Records (directOption b o) := by
  cases o with
  | none => exact .pure _
  | some f => exact (directFeature_records b f).recalled.bind fun x => .pure _

/-- The computation keeps all that is remembered. -/
def Keeps (d : Direct S F α) : Prop := ∀ w : Bench S F, w.Extends (eval d w).2

namespace Keeps

theorem of_memo {d : Direct S F α} (h : ∀ w, (eval d w).2.memo = w.memo) : Keeps d :=
  fun w => .of_memo (h w)

theorem bind {d : Direct S F α} {k : α → Direct S F β} (hd : Keeps d) (hk : ∀ a, Keeps (k a)) :
    Keeps (d >>= k) := by
  intro w
  have first := hd w
  rw [eval_bind]
  rcases heval : eval d w with ⟨_ | a, v⟩ <;> rw [heval] at first
  · exact first
  · exact first.trans (hk a v)

theorem pure (a : α) : Keeps (Pure.pure a : Direct S F α) := of_memo fun _ => rfl

theorem settle (r : Except Fault α) : Keeps (Direct.settle r : Direct S F α) :=
  of_memo fun w => by cases r <;> rfl

/-- What is remembered in the end was not remembered before: the parts have shorter keys. -/
theorem recalled {key : String} {d : Direct S F F} (hd : Keeps d) (adds : Adds key.length d) :
    Keeps (Direct.recall key d) := by
  intro w k y hk
  unfold Direct.recall
  simp only [eval_bind, eval_get, andThen_ok]
  cases new : Assoc.find? (key == ·) w.memo with
  | some x => exact hk
  | none =>
    simp only [eval_bind]
    have stays := hd w k y hk
    rcases heval : eval d w with ⟨_ | x, v⟩ <;> rw [heval] at stays
    · exact stays
    · have hne : k ≠ key := by
        rintro rfl
        exact absurd (new.symm.trans hk) (by simp)
      show Remembers (Assoc.put (· == ·) key x v.memo) k y
      rw [Remembers, Assoc.find?_put_of_ne _ _ hne]
      exact stays

theorem replaced (b : Backend S F) (f : Feature) (x : F) : Keeps (directReplaced b f x) :=
  of_memo fun w => by
    obtain ⟨notes, h⟩ := eval_directReplaced b f x w
    rw [h]

theorem replacedSource (b : Backend S F) (s : Source) (x : S) : Keeps (directReplacedSource b s x) :=
  of_memo fun w => by
    obtain ⟨notes, h⟩ := eval_directReplacedSource b s x w
    rw [h]

end Keeps

mutual

/-- **Translating features keeps all that is remembered.** -/
theorem directFeature_keeps (b : Backend S F) : ∀ f : Feature, Keeps (directFeature b f)
  | .aliased f _ => by
    simp only [directFeature]
    exact ((directFeature_keeps b f).recalled (directFeature_adds b f)).bind fun x => .pure _
  | .literal v k => by
    simp only [directFeature]
    exact .settle _
  | .element s n k => .of_memo fun w => by simp [directFeature, eval_directElement]
  | .expression op args t => by
    simp only [directFeature]
    exact (directFeatures_keeps b args).bind fun xs => (Keeps.settle _).bind fun y =>
      .replaced b _ y
  | .window fn ps os fr => by
    simp only [directFeature]
    exact ((directFeature_keeps b fn).recalled (directFeature_adds b fn)).bind fun x =>
      (directFeatures_keeps b ps).bind fun xs => (directTerms_keeps b os).bind fun ys =>
        (Keeps.settle _).bind fun z => .replaced b _ z

theorem directFeatures_keeps (b : Backend S F) : ∀ fs : List Feature, Keeps (directFeatures b fs)
  | [] => .pure _
  | f :: r => by
    simp only [directFeatures]
    exact ((directFeature_keeps b f).recalled (directFeature_adds b f)).bind fun x =>
      (directFeatures_keeps b r).bind fun xs => .pure _

theorem directTerms_keeps (b : Backend S F) : ∀ os : List OrderTerm, Keeps (directTerms b os)
  | [] => .pure _
  | .by f _ :: r => by
    simp only [directTerms]
    exact ((directFeature_keeps b f).recalled (directFeature_adds b f)).bind fun x =>
      (directTerms_keeps b r).bind fun ys => .pure _

end

theorem directOption_keeps (b : Backend S F) (o : Option Feature) : Keeps (directOption b o) := by
  cases o with
  | none => exact .pure _
  | some f =>
    exact ((directFeature_keeps b f).recalled (directFeature_adds b f)).bind fun x => .pure _

/-- The computation leaves what the scope reads and what was visited in it as it is. -/
def Quiet (d : Direct S F α) : Prop :=
  ∀ w, (eval d w).2.tables = w.tables ∧ (eval d w).2.origins = w.origins

theorem Records.quiet {d : Direct S F α} (h : Records d) : Quiet d := by
  intro w
  obtain ⟨memo, notes, hw⟩ := h w
  rw [hw]
  exact ⟨rfl, rfl⟩

namespace Quiet

theorem bind {d : Direct S F α} {k : α → Direct S F β} (hd : Quiet d) (hk : ∀ a, Quiet (k a)) :
    Quiet (d >>= k) := by
  intro w
  have hw := hd w
  rw [eval_bind]
  rcases heval : eval d w with ⟨_ | a, v⟩ <;> rw [heval] at hw
  · exact hw
  · exact ⟨(hk a v).1.trans hw.1, (hk a v).2.trans hw.2⟩

theorem scope (d : Direct S F α) : Quiet d.scope := fun _ => ⟨rfl, rfl⟩

end Quiet

/-! ### What is visited -/

/-- The computation keeps everything visited, also when it fails, and otherwise visits `more`. -/
structure Visits (d : Direct S F α) (more : List String) : Prop where
  keeps : ∀ (w : Bench S F) (o : Source), (w.origins.get? o).isSome = true →
    ((eval d w).2.origins.get? o).isSome = true
  ok : ∀ (w : Bench S F) (x : α) (w' : Bench S F), eval d w = (.ok x, w') →
    ∀ o : Source, o.key ∈ more → (w'.origins.get? o).isSome = true

namespace Visits

theorem bind {d : Direct S F α} {k : α → Direct S F β} {xs ys : List String} (hd : Visits d xs)
    (hk : ∀ a, Visits (k a) ys) : Visits (d >>= k) (xs ++ ys) where
  keeps w o ho := by
    have first := hd.keeps w o ho
    rw [eval_bind]
    rcases run : eval d w with ⟨_ | a, v⟩ <;> rw [run] at first
    · exact first
    · exact (hk a).keeps v o first
  ok w x w' run o ho := by
    obtain ⟨a, u, first, second⟩ := eval_bind_eq_ok.1 run
    rcases List.mem_append.1 ho with ho | ho
    · have kept := (hk a).keeps u o (hd.ok w a u first o ho)
      rwa [second] at kept
    · exact (hk a).ok u x w' second o ho

/-- What leaves the visited sources as they are, visits nothing more. -/
theorem of_same {d : Direct S F α} (h : ∀ w, (eval d w).2.origins = w.origins) : Visits d [] where
  keeps w o ho := by rwa [h w]
  ok _ _ _ _ _ := nofun

theorem of_quiet {d : Direct S F α} (h : Quiet d) : Visits d [] := of_same fun w => (h w).2

theorem of_records {d : Direct S F α} (h : Records d) : Visits d [] := of_quiet h.quiet

theorem setOrigin (s : Source) (x : S) :
    Visits (Direct.setOrigin s x : Direct S F Unit) [s.key] where
  keeps w o ho := by
    show ((w.origins.set s x).get? o).isSome = true
    by_cases same : Keyed.key o = Keyed.key s
    · simp [KeyedMap.get?_set_of_eq w.origins x same.symm]
    · rwa [KeyedMap.get?_set_of_ne _ _ same]
  ok w _ w' run o ho := by
    cases run
    have same : Keyed.key s = Keyed.key o := (List.mem_singleton.1 ho).symm
    simp [KeyedMap.get?_set_of_eq w.origins x same]

theorem weaken {d : Direct S F α} {xs ys : List String} (h : Visits d xs) (sub : ys ⊆ xs) :
    Visits d ys :=
  ⟨h.keeps, fun w x w' run o ho => h.ok w x w' run o (sub ho)⟩

end Visits

/-- **A source that is translated leaves all references in its scope visited.** -/
theorem directSource_visits (b : Backend S F) (s : Source) : Visits (directSource b s) s.visits := by
  cases s with
  | table t =>
    simp only [directSource, directTable]
    refine ((Visits.of_records (.settle _)).bind fun x => (Visits.setOrigin _ x).bind fun _ =>
      (Visits.of_same fun _ => rfl).bind fun _ => (Visits.of_quiet fun _ => ⟨rfl, rfl⟩).bind fun w =>
      (Visits.of_records (directFeatures_records b _)).bind fun xs =>
      (Visits.of_records (directOption_records b _)).bind fun y =>
      (Visits.of_same fun _ => rfl).bind fun _ => .of_records (.pure _)).weaken (List.nil_subset _)
  | reference s n =>
    simp only [directSource]
    refine ((directSource_visits b s).bind fun x => (Visits.setOrigin _ _).bind fun _ =>
      .of_records (.pure _)).weaken ?_
    simp [Source.visits]
  | join l r k c =>
    have sides : Visits (do
        let left ← directSource b l
        let right ← directSource b r
        let condition ← directOption b c
        directReplacedSource b (.join l r k c) (b.join left right condition k))
        (Source.join l r k c).visits := by
      refine ((directSource_visits b l).bind fun x => (directSource_visits b r).bind fun y =>
        (Visits.of_records (directOption_records b c)).bind fun z =>
          .of_records (.replacedSource b _ _)).weaken ?_
      simp [Source.visits]
    refine ⟨fun w o ho => ?_, fun w x w' run => ?_⟩
    · rw [eval_directSource_join]
      exact sides.keeps { w with tables := w.tables.filterBy c } o ho
    · rw [eval_directSource_join] at run
      exact sides.ok { w with tables := w.tables.filterBy c } x w' run
  | set l r k =>
    simp only [directSource]
    refine ((directSource_visits b l).bind fun x => (directSource_visits b r).bind fun y =>
      .of_records (.replacedSource b _ _)).weaken ?_
    simp [Source.visits]
  | query =>
    simp only [directSource]
    exact .of_quiet ((Quiet.scope _).bind fun x => (Records.replacedSource b _ x).quiet)

/-- A whole translation keeps everything visited, also when it fails. -/
theorem directFinish_visits (b : Backend S F) (tree : Tree) : Visits (directFinish b tree) [] := by
  refine ⟨fun w o ho => ?_, fun _ _ _ _ _ => nofun⟩
  cases tree with
  | source s =>
    obtain ⟨notes, finished⟩ := eval_directFinish_source b s w
    rw [finished]
    exact (directSource_visits b s).keeps w o ho
  | feature f =>
    rw [eval_directFinish_feature]
    exact (Visits.of_records (directFeature_records b f)).keeps w o ho

/-- What is visited in the outermost scope stays so behind further translations. -/
theorem Translator.after_visited {o : Source} : ∀ {later : List Tree} {t : Translator S F},
    t.state.Clean → (t.state.bench.origins.get? o).isSome = true →
      ((t.after later).state.bench.origins.get? o).isSome = true
  | [], _, _, ho => ho
  | tree :: r, t, clean, ho => by
    have served := t.serve_finish clean tree
    refine @after_visited o r (t.serve (.finish tree)).2 ?_ ?_
    · rw [served]; exact clean
    · rw [served]; exact (directFinish_visits t.backend tree).keeps t.cleared.state.bench o ho

/-- What a whole translation of a source that ended well has done. -/
theorem Translator.finished_source {t t' : Translator S F} (clean : t.state.Clean) {s : Source}
    {x : S} (h : t.serve (.finish (.source s)) = (.ok (some (.source x)), t')) :
    ∃ w notes, eval (directSource t.backend s) t.cleared.state.bench = (.ok x, w) ∧
      t'.backend = t.backend ∧ t'.state.Clean ∧ t'.state.bench = { w with notes := notes } := by
  obtain ⟨notes, finished⟩ := eval_directFinish_source t.backend s t.cleared.state.bench
  rw [t.serve_finish clean, finished] at h
  obtain ⟨given, rfl⟩ := Prod.mk.inj h
  rcases run : eval (directSource t.backend s) t.cleared.state.bench with ⟨_ | y, w⟩ <;>
    rw [run] at given
  · cases given
  · obtain rfl : y = x := by simpa [Except.map] using given
    exact ⟨w, notes, rfl, rfl, clean, rfl⟩

end QueryAlgebra.Translation
