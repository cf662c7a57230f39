import QueryAlgebra.Proofs.Tree.Factors
import QueryAlgebra.Translation.Trees

/-!
# What is registered for tables

* `Readings.All`: what holds of the columns and of the factors that are registered.
* `Readings.All.select`, `Readings.All.filterBy`, `Readings.All.registerClauses`: registering more
  keeps this.
* `Readings.All.fields`, `Readings.All.predicate`: so it holds of what a scan is given.
* `Readings.Sound`, `Inherited`: the columns are columns of tables, and what passes on to direct
  parts and to connectives holds of them and of the factors.
-/

namespace QueryAlgebra.Translation

/-- Registers the row filter that a join may have. -/
def Readings.filterBy (ts : Readings) : Option Feature → Readings
  | some p => ts.filter p
  | none   => ts

/-- `C` holds of all columns that are registered for tables, `P` of all factors. -/
def Readings.All (C P : Feature → Prop) (ts : Readings) : Prop :=
  ∀ e ∈ ts.toList, (∀ c ∈ e.2.columns.toList, C c) ∧ ∀ p ∈ e.2.factors.toList, P p

/-- `C` holds of the columns of tables inside features. -/
def Reads (C : Feature → Prop) (fs : List Feature) : Prop :=
  ∀ f ∈ fs, ∀ c ∈ f.elements, c.table?.isSome = true → C c

namespace Readings.All

variable {C P : Feature → Prop} {ts : Readings}

theorem empty : All C P .empty := by simp [All, KeyedMap.empty, KeyedMap.toList]

theorem mono (h : ts.All C P) {D : Feature → Prop} (weaker : ∀ c, C c → D c) : ts.All D P :=
  fun e he => ⟨fun c hc => weaker c ((h e he).1 c hc), (h e he).2⟩

theorem reading (h : ts.All C P) (t : Schema) :
    (∀ c ∈ (ts.reading t).columns.toList, C c) ∧ ∀ p ∈ (ts.reading t).factors.toList, P p := by
  unfold Readings.reading
  cases hget : ts.get? t with
  | none => simp [Reading.empty, KeyedSet.empty, KeyedSet.toList]
  | some r =>
    obtain ⟨e, he, rfl⟩ := KeyedMap.mem_toList_of_get? hget
    exact h e he

theorem set (h : ts.All C P) (t : Schema) {r : Reading} (hc : ∀ c ∈ r.columns.toList, C c)
    (hp : ∀ p ∈ r.factors.toList, P p) : All C P (ts.set t r) := by
  intro e he
  rcases KeyedMap.mem_toList_set he with rfl | he
  · exact ⟨hc, hp⟩
  · exact h e he

theorem touch (h : ts.All C P) (t : Schema) : (ts.touch t).All C P := by
  unfold Readings.touch
  split
  · exact h
  · exact h.set t (by simp [Reading.empty, KeyedSet.empty, KeyedSet.toList])
      (by simp [Reading.empty, KeyedSet.empty, KeyedSet.toList])

theorem addColumn (h : ts.All C P) {c : Feature} (hc : c.table?.isSome = true → C c) :
    (ts.addColumn c).All C P := by
  unfold Readings.addColumn
  split
  · exact h
  · rename_i t ht
    refine h.set t (fun x hx => ?_) (h.reading t).2
    rcases KeyedSet.mem_toList_add hx with rfl | hx
    · exact hc (by simp [ht])
    · exact (h.reading t).1 x hx

theorem addFactor (h : ts.All C P) (t : Schema) {p : Feature} (hp : P p) :
    (ts.addFactor t p).All C P := by
  refine h.set t (h.reading t).1 fun x hx => ?_
  rcases KeyedSet.mem_toList_add hx with rfl | hx
  · exact hp
  · exact (h.reading t).2 x hx

theorem select (h : ts.All C P) {fs : List Feature} (hfs : Reads C fs) :
    (ts.select fs).All C P := by
  have columns : ∀ c ∈ columnsIn fs, c.table?.isSome = true → C c := by
    intro c hc
    obtain ⟨f, hf, hcf⟩ := mem_elementsIn (List.mem_filter.1 hc).1
    exact hfs f hf c hcf
  unfold Readings.select
  generalize columnsIn fs = cs at columns
  induction cs generalizing ts with
  | nil => exact h
  | cons c r ih =>
    obtain ⟨hc, hr⟩ := List.forall_mem_cons.1 columns
    exact ih (h.addColumn hc) hr

theorem filter (h : ts.All C P) {p : Feature} (hp : Reads C [p])
    (factors : ∀ e ∈ p.factors.toList, P e.2) : (ts.filter p).All C P := by
  have selected : (ts.select [p]).All C P := h.select hp
  unfold Readings.filter
  generalize p.factors.toList = es at factors
  generalize ts.select [p] = us at selected
  induction es generalizing us with
  | nil => exact selected
  | cons e r ih =>
    obtain ⟨he, hr⟩ := List.forall_mem_cons.1 factors
    exact ih hr _ (selected.addFactor e.1 he)

theorem filterBy (h : ts.All C P) {c : Option Feature} (hc : Reads C c.toList)
    (factors : ∀ p ∈ c, ∀ e ∈ p.factors.toList, P e.2) : (ts.filterBy c).All C P := by
  cases c with
  | none => exact h
  | some p => exact h.filter hc (factors p rfl)

/-- The clauses of a statement register their columns, and the factors of the row filter. -/
theorem registerClauses (h : ts.All C P) {outputs : List Feature} {pre : Option Feature}
    {grp : List Feature} {post : Option Feature} {ord : List OrderTerm} (houtputs : Reads C outputs)
    (hpre : Reads C pre.toList) (hgrp : Reads C grp) (hpost : Reads C post.toList)
    (hord : Reads C (ord.map OrderTerm.feature))
    (factors : ∀ p ∈ pre, ∀ e ∈ p.factors.toList, P e.2) :
    (Translation.registerClauses outputs pre grp post ord ts).All C P := by
  have filtered := (h.select houtputs).filterBy hpre factors
  unfold Translation.registerClauses
  cases pre <;> cases post with
  | none => exact (filtered.select hgrp).select hord
  | some q => exact ((filtered.select hpost).select hgrp).select hord

/-- The columns that a scan reads. -/
theorem fields (h : ts.All C P) (t : Schema) : ∀ c ∈ (ts.reading t).fields, C c :=
  fun c hc => (h.reading t).1 c (mem_ordered.1 hc)

/-- The predicate that a scan may apply. -/
theorem predicate (h : ts.All C P)
    (pair : ∀ op ∈ connectives, ∀ a b, P a → P b → P (.expression op [a, b] none)) (t : Schema) :
    ∀ q ∈ (ts.reading t).predicate, P q :=
  anyOf_forall pair (h.reading t).2

end Readings.All

/-- What passes on to direct parts, and from both sides of a connective to the whole; the sides have
no aliases. -/
structure Inherited (P : Feature → Prop) : Prop where
  down : ∀ g, P g → ∀ c ∈ g.children, P c
  pair : ∀ op ∈ connectives, ∀ a b, a.bare = a → b.bare = b → P a → P b →
    P (.expression op [a, b] none)

/-- The columns registered for tables are columns of tables, the factors registered have no aliases,
and `P` holds of all of them. -/
abbrev Readings.Sound (P : Feature → Prop) (ts : Readings) : Prop :=
  ts.All (fun c => c.table?.isSome = true ∧ P c) fun p => p.bare = p ∧ P p

namespace Inherited

variable {P : Feature → Prop} (hP : Inherited P)
include hP

theorem reads {fs : List Feature} (hfs : ∀ f ∈ fs, P f) :
    Reads (fun c => c.table?.isSome = true ∧ P c) fs :=
  fun f hf c hc ht => ⟨ht, Feature.forall_elements hP.down f (hfs f hf) c hc⟩

theorem factors {c : Option Feature} (hc : ∀ p ∈ c, P p) :
    ∀ p ∈ c, ∀ e ∈ p.factors.toList, e.2.bare = e.2 ∧ P e.2 :=
  fun p hp => Feature.factors_forall hP.pair hP.down p (hc p hp)

/-- `P` holds of the predicate that a scan may apply. -/
theorem predicate {ts : Readings} (h : ts.Sound P) (t : Schema) :
    ∀ q ∈ (ts.reading t).predicate, P q := fun q hq =>
  (Readings.All.predicate h (fun op hop a b ha hb => ⟨rfl, hP.pair op hop a b ha.1 hb.1 ha.2 hb.2⟩)
    t q hq).2

/-- A row filter that `P` holds of registers what `P` holds of. -/
theorem filterBy {ts : Readings} (h : ts.Sound P) {c : Option Feature} (hc : ∀ p ∈ c, P p) :
    (ts.filterBy c).Sound P :=
  h.filterBy (hP.reads fun p hp => hc p (Option.mem_toList.1 hp)) (hP.factors hc)

/-- So do the clauses of a statement. -/
theorem registerClauses {outputs : List Feature} {pre : Option Feature} {grp : List Feature}
    {post : Option Feature} {ord : List OrderTerm} (houtputs : ∀ f ∈ outputs, P f)
    (hpre : ∀ f ∈ pre, P f) (hgrp : ∀ f ∈ grp, P f) (hpost : ∀ f ∈ post, P f)
    (hord : ∀ o ∈ ord, P o.feature) :
    (Translation.registerClauses outputs pre grp post ord .empty).Sound P := by
  refine Readings.All.empty.registerClauses (hP.reads houtputs)
    (hP.reads fun p hp => hpre p (Option.mem_toList.1 hp)) (hP.reads hgrp)
    (hP.reads fun p hp => hpost p (Option.mem_toList.1 hp)) (hP.reads fun f hf => ?_)
    (hP.factors hpre)
  obtain ⟨o, ho, rfl⟩ := List.mem_map.1 hf
  exact hord o ho

end Inherited

end QueryAlgebra.Translation
