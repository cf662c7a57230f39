import QueryAlgebra.Proofs.Tree.Accepted

/-!
# What orderings are written with

An ordering is a flat list in which four forms of items stand one behind the other: a term, a feature, a
feature with a token of its direction behind it, and a pair of both.

* `OrderTerm.Item`: an item, and the term that it stands for; `OrderTerm.Refused`: what stands where no
  item can be read, and the fault that names it.
* `OrderTerm.make_spelled`: terms that are taken apart into features and tokens come back, however the
  tokens are spelled and whether they stand in pairs or not; `OrderTerm.make_named`: by the names of the
  two directions, for one.
* `OrderTerm.orderings_read`: a list is read as its items say, and refused where there is none.
-/

namespace QueryAlgebra

/-! ### Items -/

namespace OrderTerm

/-- An item of a list that orderings are written with, and the term that it stands for. Aliases are left
out, and a feature without a token ascends. -/
inductive Item : List OrderSpec → OrderTerm → Prop where
  | term (o : OrderTerm) : Item [.term o] o
  | plain (f : Feature) : Item [.feature f] (.by f.bare .ascending)
  | directed (f : Feature) {token : String} {d : Direction} (direction : d.Token token) :
      Item [.feature f, .value (.text token)] (.by f.bare d)
  | pair (f : Feature) {token : String} {d : Direction} (direction : d.Token token) :
      Item [.pair [.feature f, .value (.text token)]] (.by f.bare d)

/-- What a list begins with where no item can be read, and the fault that this is: a feature with a text
that is no token, in a pair or not, a value, or a list that is no pair. -/
inductive Refused : List OrderSpec → Fault → Prop where
  | directed (f : Feature) {token : String} (unknown : ∀ d : Direction, ¬d.Token token)
      (r : List OrderSpec) :
      Refused (.feature f :: .value (.text token) :: r) (.unknownDirection token)
  | pair (f : Feature) {token : String} (unknown : ∀ d : Direction, ¬d.Token token)
      (r : List OrderSpec) :
      Refused (.pair [.feature f, .value (.text token)] :: r) (.unknownDirection token)
  | value (v : Value) (r : List OrderSpec) :
      Refused (.value v :: r) (.notAnOrdering v.plain)
  | list {items : List Operand} (other : ∀ f token, items ≠ [.feature f, .value (.text token)])
      (r : List OrderSpec) :
      Refused (.pair items :: r) (.notAnOrdering (OrderSpec.pair items).shown)

/-- The items that a list is made of say how the ordering is written. -/
theorem written_of_items {items : List (List OrderSpec)} {os : List OrderTerm}
    (h : List.Forall₂ Item items os) : Written (fun _ => True) items.flatten os := by
  induction h with
  | nil => exact .nil
  | cons first _ ih =>
    cases first with
    | term => exact .term _ ih
    | plain f => exact .plain f ih
    | directed f direction => exact .directed f trivial direction ih
    | pair f direction => exact .pair f trivial direction ih

/-- An ordering is written with items, one for each term. -/
theorem Written.items {D : Direction → Prop} {specs : List OrderSpec} {os : List OrderTerm}
    (h : Written D specs os) :
    ∃ items, specs = items.flatten ∧ List.Forall₂ Item items os := by
  induction h with
  | nil => exact ⟨[], rfl, .nil⟩
  | term o _ ih =>
    obtain ⟨items, split, hs⟩ := ih
    exact ⟨[.term o] :: items, congrArg _ split, .cons (.term o) hs⟩
  | plain f _ ih =>
    obtain ⟨items, rfl, hs⟩ := ih
    exact ⟨_ :: items, rfl, .cons (.plain f) hs⟩
  | directed f _ direction _ ih =>
    obtain ⟨items, rfl, hs⟩ := ih
    exact ⟨_ :: items, rfl, .cons (.directed f direction) hs⟩
  | pair f _ direction _ ih =>
    obtain ⟨items, rfl, hs⟩ := ih
    exact ⟨_ :: items, rfl, .cons (.pair f direction) hs⟩

/-- **A list of items is read as they say**, and no other list is read. -/
theorem make_eq_ok_iff_items {specs : List OrderSpec} {os : List OrderTerm} :
    make specs = .ok os ↔ ∃ items, specs = items.flatten ∧ List.Forall₂ Item items os := by
  rw [make_eq_ok_iff]
  exact ⟨Written.items, fun ⟨_, split, hs⟩ => split ▸ written_of_items hs⟩

/-- A fault of a list that begins with an item is one of what stands behind it. -/
theorem error_behind {x : Except Fault (List OrderTerm)} {o : OrderTerm} {e : Fault}
    (h : (do return o :: (← x)) = Except.error e) : x = .error e := by
  cases x with
  | error e' => exact h
  | ok os => cases h

/-- What is refused behind an item is refused behind the items that it begins. -/
theorem refused_behind {item rest : List OrderSpec} {o : OrderTerm} {e : Fault} (first : Item item o)
    (h : ∃ items os last, rest = items.flatten ++ last ∧ List.Forall₂ Item items os ∧ Refused last e) :
    ∃ items os last, item ++ rest = items.flatten ++ last ∧ List.Forall₂ Item items os ∧
      Refused last e := by
  obtain ⟨items, os, last, rfl, hs, refused⟩ := h
  exact ⟨item :: items, o :: os, last, by simp, .cons first hs, refused⟩

/-- **A list that is not read begins with items**, and the fault names what stands behind them. -/
theorem make_eq_error {specs : List OrderSpec} {e : Fault} (h : make specs = .error e) :
    ∃ items os rest, specs = items.flatten ++ rest ∧ List.Forall₂ Item items os ∧ Refused rest e := by
  have here : ∀ {rest : List OrderSpec}, Refused rest e →
      ∃ items os last, rest = items.flatten ++ last ∧ List.Forall₂ Item items os ∧ Refused last e :=
    fun refused => ⟨[], [], _, rfl, .nil, refused⟩
  induction specs using make.induct with
  | case1 => cases h
  | case2 o r ih => exact refused_behind (.term o) (ih (error_behind h))
  | case3 f token r ih =>
    rw [make] at h
    cases direction : Direction.ofToken token with
    | error e' =>
      obtain ⟨rfl, unknown⟩ := Direction.ofToken_eq_error direction
      rw [direction] at h
      cases h
      exact here (.directed f unknown r)
    | ok d =>
      rw [direction] at h
      exact refused_behind (.directed f (Direction.ofToken_eq_ok_iff.1 direction)) (ih (error_behind h))
  | case4 f r alone ih =>
    rw [make.eq_4 f r alone] at h
    exact refused_behind (.plain f) (ih (error_behind h))
  | case5 f token r ih =>
    rw [make] at h
    cases direction : Direction.ofToken token with
    | error e' =>
      obtain ⟨rfl, unknown⟩ := Direction.ofToken_eq_error direction
      rw [direction] at h
      cases h
      exact here (.pair f unknown r)
    | ok d =>
      rw [direction] at h
      exact refused_behind (.pair f (Direction.ofToken_eq_ok_iff.1 direction)) (ih (error_behind h))
  | case6 spec r noTerm noToken noFeature noPair =>
    rw [make.eq_6 spec r noTerm noToken noFeature noPair] at h
    obtain rfl := Except.error.inj h
    cases spec with
    | term o => exact absurd rfl (noTerm o)
    | feature f => exact absurd rfl (noFeature f)
    | value v => exact here (.value v r)
    | pair items => exact here (.list (fun f token same => noPair f token (same ▸ rfl)) r)

theorem Refused.category {specs : List OrderSpec} {e : Fault} (h : Refused specs e) :
    e.category = .grammar := by
  cases h <;> rfl

/-- **Terms that are taken apart come back**: each as its feature with a token of its direction behind
it, in a pair or not. -/
theorem make_spelled {os : List OrderTerm} {token : OrderTerm → String}
    (spelled : ∀ o ∈ os, o.feature.bare = o.feature ∧ o.direction.Token (token o)) :
    make (os.flatMap fun o => [.feature o.feature, .value (.text (token o))]) = .ok os ∧
      make (os.map fun o => .pair [.feature o.feature, .value (.text (token o))]) = .ok os := by
  simp only [make_eq_ok_iff]
  induction os with
  | nil => exact ⟨.nil, .nil⟩
  | cons o r ih =>
    obtain ⟨⟨bare, direction⟩, others⟩ := List.forall_mem_cons.1 spelled
    obtain ⟨flat, pairs⟩ := ih others
    cases o with
    | «by» f d =>
      have directed := Written.directed f trivial direction flat
      have pair := Written.pair f trivial direction pairs
      rw [show f.bare = f from bare] at directed pair
      exact ⟨directed, pair⟩

/-- Terms of the two directions come back by the names of these. -/
theorem make_named {os : List OrderTerm}
    (proper : ∀ o ∈ os, o.feature.bare = o.feature ∧ o.direction.Proper) :
    make (os.flatMap fun o => [.feature o.feature, .value (.text o.direction.name)]) = .ok os ∧
      make (os.map fun o => .pair [.feature o.feature, .value (.text o.direction.name)]) = .ok os :=
  make_spelled fun o ho =>
    ⟨(proper o ho).1, (proper o ho).2.token_name⟩

/-- **A list is read as an ordering exactly if it is made of items**, and then it has one term for each
of them. In any other list the items end before what the fault names, which is one of grammar. Terms
that are taken apart come back. -/
theorem orderings_read (specs : List OrderSpec) (os : List OrderTerm) (token : OrderTerm → String) :
    (make specs = .ok os ↔ ∃ items, specs = items.flatten ∧ List.Forall₂ Item items os) ∧
    (∀ e, make specs = .error e → e.category = .grammar ∧ ∃ items read rest,
      specs = items.flatten ++ rest ∧ List.Forall₂ Item items read ∧ Refused rest e) ∧
    ((∀ o ∈ os, o.feature.bare = o.feature ∧ o.direction.Token (token o)) →
      make (os.flatMap fun o => [.feature o.feature, .value (.text (token o))]) = .ok os ∧
        make (os.map fun o => .pair [.feature o.feature, .value (.text (token o))]) = .ok os) := by
  refine ⟨make_eq_ok_iff_items, fun e h => ?_, make_spelled⟩
  obtain ⟨items, read, rest, split, each, refused⟩ := make_eq_error h
  exact ⟨refused.category, items, read, rest, split, each, refused⟩

/-- Two terms, one of them with a token in mixed case, that are taken apart. -/
theorem orderings_read_of_scores :
    let score : Feature := .element (.table ⟨"pupil", []⟩) "score" (.primitive .integer)
    let os : List OrderTerm := [.by score .descending, .by score .ascending]
    let token (o : OrderTerm) : String := if o.direction = .descending then "DeSc" else "ascending"
    (∀ o ∈ os, o.feature.bare = o.feature ∧ o.direction.Token (token o)) ∧
      make [.feature score, .value (.text "DeSc"), .feature score, .value (.text "ascending")] = .ok os ∧
      make [.pair [.feature score, .value (.text "DeSc")],
        .pair [.feature score, .value (.text "ascending")]] = .ok os := by
  intro score os token
  have small : "DeSc".toLower = "desc" := by decide +kernel
  have same : "ascending".toLower = "ascending" := by decide +kernel
  have spelled : ∀ o ∈ os, o.feature.bare = o.feature ∧ o.direction.Token (token o) := by
    intro o ho
    rcases List.mem_pair.1 ho with rfl | rfl
    · exact ⟨rfl, Direction.token_iff.2 (small ▸ .head _)⟩
    · exact ⟨rfl, Direction.token_iff.2 (same ▸ .tail _ (.head _))⟩
  exact ⟨spelled, (orderings_read [] os token).2.2 spelled⟩

/-- What all records know is taken for a direction, though it is a token of neither. -/
theorem make_reads_inherited :
    let score : Feature := .element (.table ⟨"pupil", []⟩) "score" (.primitive .integer)
    make [.feature score, .value (.text "constructor")] = .ok [.by score (.inherited .maker)] ∧
      ∀ d : Direction, d.Proper → ¬d.Token "constructor" := by
  intro score
  have small : "constructor".toLower = "constructor" := by decide +kernel
  have token : Direction.Token (.inherited .maker) "constructor" :=
    Direction.token_iff.2 (by rw [small]; exact .head _)
  refine ⟨make_eq_ok_iff.2 (.directed score trivial token .nil), ?_⟩
  intro d proper token
  rw [Direction.token_iff, small] at token
  rcases proper with rfl | rfl <;> revert token <;> decide

end OrderTerm

end QueryAlgebra
