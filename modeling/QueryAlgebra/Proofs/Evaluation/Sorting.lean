import QueryAlgebra.Proofs.Evaluation.Arrangement
import QueryAlgebra.Proofs.Evaluation.Order

/-!
# Rows in order

Sorting takes the run at the head of the rows and inserts all other rows by halving. Where every two rows
compare and the comparison is transitive, what it gives is in order. Rows are compared by one key after
the other and then by their positions, so any values in a total preorder put the rows in a total order, in
which rows that tie keep the order that they have.

* `Orders`: a comparison in which no two items are alike.
* `sortBy_pairwise`: sorted items are in order.
* `Tied`, `SortsBefore`, `Arranged`: rows that tie on all keys, rows of which a key tells the order, and
  rows in order.
* `comparePositions_less_iff`: what comes first.
* `orders_positions`: rows are in a total order if the values of each key are in a total preorder.
* `arrange_pairwise`: arranged rows are in order.
-/

namespace QueryAlgebra.Evaluation

open Dataset

/-! ### Sorting -/

section

variable {α : Type} {cmp : α → α → Except Fault Comparison}

/-- Of two items the one is before the other, and the comparison is transitive. -/
structure Orders (cmp : α → α → Except Fault Comparison) (known : α → Prop) : Prop where
  total : ∀ a b, known a → known b → a ≠ b →
    cmp a b = .ok .less ∧ precedes cmp b a = .ok false ∨ cmp b a = .ok .less ∧ precedes cmp a b = .ok false
  trans : ∀ a b c, known a → known b → known c → cmp a b = .ok .less → cmp b c = .ok .less →
    cmp a c = .ok .less

/-- The one item is before the other. -/
def Before (cmp : α → α → Except Fault Comparison) (a b : α) : Prop := cmp a b = .ok .less

variable {known : α → Prop} (orders : Orders cmp known)
include orders

theorem Orders.precedes_eq_ok {a b : α} (ha : known a) (hb : known b) (apart : a ≠ b) {yes : Bool}
    (h : precedes cmp a b = .ok yes) : if yes then Before cmp a b else Before cmp b a := by
  have less : ∀ a b, cmp a b = .ok .less → precedes cmp a b = .ok true := fun a b h => by
    unfold precedes
    rw [h]
    rfl
  rcases orders.total a b ha hb apart with ⟨before, -⟩ | ⟨behind, none⟩
  · rw [less a b before] at h
    cases h
    exact before
  · rw [none] at h
    cases h
    exact behind

/-- A run follows on what is before it. -/
theorem Orders.spanRun_pairwise {falling : Bool} : ∀ {as run rest : List α} {last : α},
    (∀ a ∈ last :: as, known a) → (last :: as).Nodup → spanRun cmp falling last as = .ok (run, rest) →
      (last :: run).Pairwise fun a b => if falling then Before cmp b a else Before cmp a b
  | [], run, rest, last, _, _, h => by
    obtain ⟨rfl, rfl⟩ := Prod.mk.inj (Except.ok.inj h)
    exact List.pairwise_singleton _ _
  | a :: r, run, rest, last, inside, distinct, h => by
    obtain ⟨hlast, hothers⟩ := List.forall_mem_cons.1 inside
    obtain ⟨ha, -⟩ := List.forall_mem_cons.1 hothers
    obtain ⟨apart, others⟩ := List.nodup_cons.1 distinct
    obtain ⟨before, decided, h⟩ := bind_eq_ok.1 h
    split at h
    · rename_i same
      subst same
      obtain ⟨⟨inner, left⟩, span, h⟩ := bind_eq_ok.1 h
      obtain ⟨rfl, rfl⟩ := Prod.mk.inj (pure_eq_ok.1 h)
      have run := Orders.spanRun_pairwise hothers others span
      have part : ∀ b ∈ inner, known b := fun b hb =>
        hothers b (List.mem_cons_of_mem _ (spanRun_append span ▸ List.mem_append_left _ hb))
      have first := orders.precedes_eq_ok ha hlast (fun same => apart (same ▸ List.mem_cons_self)) decided
      refine List.pairwise_cons.2 ⟨List.forall_mem_cons.2 ⟨?_, fun b hb => ?_⟩, run⟩
      · cases before <;> exact first
      · have second := (List.pairwise_cons.1 run).1 b hb
        cases before with
        | true => exact orders.trans _ _ _ (part b hb) ha hlast second first
        | false => exact orders.trans _ _ _ hlast ha (part b hb) first second
    · obtain ⟨rfl, rfl⟩ := Prod.mk.inj (pure_eq_ok.1 h)
      exact List.pairwise_singleton _ _

/-- The run at the head is in order when a falling one is turned round. -/
theorem Orders.firstRun_pairwise {as run rest : List α} (inside : ∀ a ∈ as, known a)
    (distinct : as.Nodup) (h : firstRun cmp as = .ok (run, rest)) : run.Pairwise (Before cmp) := by
  unfold firstRun at h
  split at h
  · rename_i a b r
    obtain ⟨falling, decided, h⟩ := bind_eq_ok.1 h
    obtain ⟨⟨inner, others⟩, span, h⟩ := bind_eq_ok.1 h
    obtain ⟨rfl, rfl⟩ := Prod.mk.inj (pure_eq_ok.1 h)
    have whole : spanRun cmp falling a (b :: r) = .ok (b :: inner, others) := by
      simp only [spanRun, decided, span, bind, Except.bind, if_true]
      rfl
    have run := orders.spanRun_pairwise inside distinct whole
    cases falling with
    | true => exact List.pairwise_reverse.2 run
    | false => exact run
  · rename_i short
    obtain ⟨rfl, rfl⟩ := Prod.mk.inj (Except.ok.inj h)
    cases as with
    | nil => exact .nil
    | cons a r =>
      cases r with
      | nil => exact List.pairwise_singleton _ _
      | cons b r => exact absurd rfl (short a b r)

/-- An item that is inserted by halving stands in its place. -/
theorem Orders.insertHalving_pairwise {a : α} (ha : known a) : ∀ {fuel : Nat} {bs cs : List α},
    bs.length ≤ fuel → (∀ b ∈ bs, known b) → a ∉ bs → bs.Pairwise (Before cmp) →
      insertHalving cmp a fuel bs = .ok cs → cs.Pairwise (Before cmp)
  | 0, bs, cs, short, _, _, _, h => by
    obtain rfl : bs = [] := List.eq_nil_of_length_eq_zero (Nat.le_zero.1 short)
    obtain rfl : [a] = cs := Except.ok.inj h
    exact List.pairwise_singleton _ _
  | fuel + 1, bs, cs, short, inside, new, sorted, h => by
    unfold insertHalving at h
    rw [List.splitAt_eq] at h
    split at h
    · obtain rfl : [a] = cs := Except.ok.inj h
      exact List.pairwise_singleton _ _
    · rename_i low middle high halves
      obtain ⟨low_eq, high_eq⟩ := Prod.mk.inj halves
      have half : low.length = bs.length / 2 := by
        rw [← low_eq, List.length_take]
        omega
      obtain rfl : low ++ middle :: high = bs := by rw [← low_eq, ← high_eq, List.take_append_drop]
      simp only [List.length_append, List.length_cons] at short half
      obtain ⟨lower, upper, across⟩ := List.pairwise_append.1 sorted
      obtain ⟨above, higher⟩ := List.pairwise_cons.1 upper
      obtain ⟨hlow, hrest⟩ := List.forall_mem_append.1 inside
      obtain ⟨hmiddle, hhigh⟩ := List.forall_mem_cons.1 hrest
      obtain ⟨before, decided, h⟩ := bind_eq_ok.1 h
      have place := orders.precedes_eq_ok ha hmiddle (fun same => new (by simp [same])) decided
      cases before with
      | true =>
        obtain ⟨inner, inserted, h⟩ := bind_eq_ok.1 h
        obtain rfl := pure_eq_ok.1 h
        have sorted := Orders.insertHalving_pairwise ha (by omega) hlow
          (fun again => new (List.mem_append_left _ again)) lower inserted
        refine List.pairwise_append.2 ⟨sorted, upper, fun x hx y hy => ?_⟩
        rcases List.mem_cons.1 ((insertHalving_perm inserted).subset hx) with rfl | hx
        · rcases List.mem_cons.1 hy with rfl | hy
          · exact place
          · exact orders.trans _ _ _ ha hmiddle (hhigh y hy) place (above y hy)
        · exact across x hx y hy
      | false =>
        obtain ⟨inner, inserted, h⟩ := bind_eq_ok.1 h
        obtain rfl := pure_eq_ok.1 h
        have sorted := Orders.insertHalving_pairwise ha (by omega) hhigh (fun again => new (by simp [again]))
          higher inserted
        have moved := (insertHalving_perm inserted).subset
        refine List.pairwise_append.2 ⟨lower, List.pairwise_cons.2 ⟨fun y hy => ?_, sorted⟩,
          fun x hx => List.forall_mem_cons.2 ⟨across x hx middle List.mem_cons_self, fun y hy => ?_⟩⟩
        · rcases List.mem_cons.1 (moved hy) with rfl | hy
          · exact place
          · exact above y hy
        · rcases List.mem_cons.1 (moved hy) with rfl | hy
          · exact orders.trans _ _ _ (hlow x hx) hmiddle ha (across x hx middle List.mem_cons_self) place
          · exact across x hx y (List.mem_cons_of_mem _ hy)

theorem Orders.insertAll_pairwise : ∀ {rest sorted bs : List α},
    (∀ a ∈ sorted ++ rest, known a) → (sorted ++ rest).Nodup → sorted.Pairwise (Before cmp) →
      rest.foldlM (fun sorted a => insertHalving cmp a sorted.length sorted) sorted = .ok bs →
        bs.Pairwise (Before cmp)
  | [], sorted, bs, _, _, inOrder, h => by
    obtain rfl := pure_eq_ok.1 h
    exact inOrder
  | a :: r, sorted, bs, inside, distinct, inOrder, h => by
    rw [List.foldlM_cons] at h
    obtain ⟨next, inserted, h⟩ := bind_eq_ok.1 h
    have moved : (next ++ r).Perm (sorted ++ a :: r) :=
      ((insertHalving_perm inserted).append_right r).trans List.perm_middle.symm
    refine Orders.insertAll_pairwise (fun b hb => inside b (moved.subset hb)) (moved.nodup_iff.2 distinct) ?_ h
    refine orders.insertHalving_pairwise (inside a (by simp)) le_rfl
      (fun b hb => inside b (List.mem_append_left _ hb)) (fun again => ?_) inOrder inserted
    exact (List.nodup_append.1 distinct).2.2 a again a List.mem_cons_self rfl

/-- **Sorted items are in order.** -/
theorem Orders.sortBy_pairwise {as bs : List α} (inside : ∀ a ∈ as, known a) (distinct : as.Nodup)
    (h : sortBy cmp as = .ok bs) : bs.Pairwise (Before cmp) := by
  obtain ⟨⟨run, rest⟩, first, h⟩ := bind_eq_ok.1 h
  have moved := firstRun_perm first
  exact orders.insertAll_pairwise (fun a ha => inside a (moved.subset ha)) (moved.nodup_iff.2 distinct)
    (orders.firstRun_pairwise inside distinct first) h

end

/-! ### Keys -/

/-- The rows have equal values of a key. -/
def Ties (k : SortKey) (i j : Nat) : Prop := valueOrder (item k.1 i) (item k.1 j) = .ok .equal

/-- A key puts the first row before the second one: it ascends, or it descends, as all other directions
do. -/
def Rises (k : SortKey) (i j : Nat) : Prop :=
  match k.2 with
  | .ascending => valueOrder (item k.1 i) (item k.1 j) = .ok .less
  | _          => valueOrder (item k.1 j) (item k.1 i) = .ok .less

/-- The rows tie on all keys. -/
def Tied (keys : List SortKey) (i j : Nat) : Prop := ∀ k ∈ keys, Ties k i j

/-- The first key on which the rows do not tie puts the first row before the second one. -/
def SortsBefore (keys : List SortKey) (i j : Nat) : Prop :=
  ∃ before k after, keys = before ++ k :: after ∧ Tied before i j ∧ Rises k i j

/-- Rows in order under sorting keys, rows that tie in the order of their positions. -/
def Arranged (keys : List SortKey) (sorted : List Nat) : Prop :=
  sorted.Pairwise fun i j => SortsBefore keys i j ∨ Tied keys i j ∧ i < j

theorem not_sortsBefore_nil (i j : Nat) : ¬SortsBefore [] i j := by
  rintro ⟨before, k, after, split, -⟩
  cases before <;> cases split

theorem sortsBefore_cons {k : SortKey} {r : List SortKey} {i j : Nat} :
    SortsBefore (k :: r) i j ↔ Rises k i j ∨ Ties k i j ∧ SortsBefore r i j := by
  constructor
  · rintro ⟨before, k', after, split, tied, rises⟩
    cases before with
    | nil =>
      obtain ⟨rfl, rfl⟩ := List.cons.inj split
      exact .inl rises
    | cons k₁ before =>
      obtain ⟨rfl, rfl⟩ := List.cons.inj split
      obtain ⟨first, rest⟩ := List.forall_mem_cons.1 tied
      exact .inr ⟨first, before, k', after, rfl, rest, rises⟩
  · rintro (rises | ⟨ties, before, k', after, rfl, tied, rises⟩)
    · exact ⟨[], k, r, rfl, nofun, rises⟩
    · exact ⟨k :: before, k', after, rfl, List.forall_mem_cons.2 ⟨ties, tied⟩, rises⟩

theorem Ties.symm {k : SortKey} {i j : Nat} (h : Ties k i j) : Ties k j i := by
  unfold Ties
  rw [valueOrder_flip, h]
  rfl

theorem Rises.not_ties {k : SortKey} {i j : Nat} (h : Rises k i j) : ¬Ties k i j := by
  obtain ⟨values, d⟩ := k
  intro ties
  cases d with
  | ascending => cases Eq.trans (Eq.symm ties) h
  | _ => cases Eq.trans (Eq.symm ties.symm) h

theorem Tied.not_sortsBefore {keys : List SortKey} {i j : Nat} (h : Tied keys i j) :
    ¬SortsBefore keys i j := by
  rintro ⟨before, k, after, rfl, -, rises⟩
  exact rises.not_ties (h k (by simp))

/-- The empty value comes first in ascending order, and last otherwise. -/
theorem rises_of_null {k : SortKey} {i j : Nat} (empty : item k.1 i = .null) (present : item k.1 j ≠ .null) :
    match k.2 with
    | .ascending => Rises k i j
    | _          => Rises k j i := by
  have first : valueOrder (item k.1 i) (item k.1 j) = .ok .less := by
    rw [empty]
    cases h : item k.1 j <;> first | rfl | exact absurd h present
  obtain ⟨values, d⟩ := k
  cases d <;> exact first

/-- Rows compare the other way round as the same rows do. -/
theorem comparePositions_flip (i j : Nat) : ∀ keys : List SortKey,
    comparePositions keys j i = (comparePositions keys i j).map Comparison.flip
  | [] => by
    refine congrArg Except.ok ?_
    rw [← Comparison.ofOrdering_swap, Nat.compare_swap]
  | (values, d) :: r => by
    have rest := comparePositions_flip i j r
    simp only [comparePositions]
    rw [valueOrder_flip (item values i)]
    cases valueOrder (item values i) (item values j) with
    | error f => rfl
    | ok c => cases c <;> cases d <;> first | exact rest | rfl

theorem comparePositions_cons {k : SortKey} {r : List SortKey} {i j : Nat} :
    comparePositions (k :: r) i j = .ok .less ↔
      Rises k i j ∨ Ties k i j ∧ comparePositions r i j = .ok .less := by
  obtain ⟨values, d⟩ := k
  unfold Rises Ties
  simp only [comparePositions]
  rw [valueOrder_flip (item values i)]
  cases valueOrder (item values i) (item values j) with
  | error f => cases d <;> simp [bind, Except.bind, Except.map]
  | ok c => cases c <;> cases d <;> simp [bind, Except.bind, Except.map, Comparison.flip, pure, Except.pure]

/-- **Of two rows the one comes first that a key puts before the other**, or that stands first where they
tie on all keys. -/
theorem comparePositions_less_iff {i j : Nat} : ∀ {keys : List SortKey},
    comparePositions keys i j = .ok .less ↔ SortsBefore keys i j ∨ Tied keys i j ∧ i < j
  | [] => by
    have order : comparePositions [] i j = .ok .less ↔ i < j := by
      rw [← Nat.compare_eq_lt]
      simp only [comparePositions, Except.ok.injEq]
      cases compare i j <;> simp [Comparison.ofOrdering]
    simp [order, not_sortsBefore_nil, Tied]
  | k :: r => by
    rw [comparePositions_cons, comparePositions_less_iff, sortsBefore_cons]
    simp only [Tied, List.forall_mem_cons]
    tauto

/-! ### Rows whose keys are in a total preorder -/

/-- The values of a key on rows are in a total preorder. -/
def KeyOrdered (known : Nat → Prop) (k : SortKey) : Prop :=
  Preordered fun v => ∃ i, known i ∧ v = item k.1 i

/-- The first row does not come after the second one by a key. -/
def NotAfter (k : SortKey) (i j : Nat) : Prop :=
  match k.2 with
  | .ascending => AtMost (item k.1 i) (item k.1 j)
  | _          => AtMost (item k.1 j) (item k.1 i)

theorem ties_iff {k : SortKey} {i j : Nat} : Ties k i j ↔ NotAfter k i j ∧ NotAfter k j i := by
  obtain ⟨values, d⟩ := k
  cases d with
  | ascending => exact equal_iff_atMost
  | _ => exact equal_iff_atMost.trans and_comm

section

variable {known : Nat → Prop} {k : SortKey} (order : KeyOrdered known k) {i j l : Nat} (hi : known i)
  (hj : known j)
include order hi hj

theorem KeyOrdered.rises_iff : Rises k i j ↔ ¬NotAfter k j i := by
  obtain ⟨values, d⟩ := k
  cases d with
  | ascending => exact order.less_iff ⟨i, hi, rfl⟩ ⟨j, hj, rfl⟩
  | _ => exact order.less_iff ⟨j, hj, rfl⟩ ⟨i, hi, rfl⟩

theorem KeyOrdered.total : NotAfter k i j ∨ NotAfter k j i := by
  obtain ⟨values, d⟩ := k
  cases d with
  | ascending => exact Preordered.total order _ _ ⟨i, hi, rfl⟩ ⟨j, hj, rfl⟩
  | _ => exact Preordered.total order _ _ ⟨j, hj, rfl⟩ ⟨i, hi, rfl⟩

theorem KeyOrdered.trans (hl : known l) (first : NotAfter k i j) (second : NotAfter k j l) :
    NotAfter k i l := by
  obtain ⟨values, d⟩ := k
  cases d with
  | ascending => exact Preordered.trans order _ _ _ ⟨i, hi, rfl⟩ ⟨j, hj, rfl⟩ ⟨l, hl, rfl⟩ first second
  | _ => exact Preordered.trans order _ _ _ ⟨l, hl, rfl⟩ ⟨j, hj, rfl⟩ ⟨i, hi, rfl⟩ second first

end

section

variable {known : Nat → Prop} {i j l : Nat}

/-- One of two rows comes first. -/
theorem comparePositions_total (hi : known i) (hj : known j) (apart : i ≠ j) : ∀ {keys : List SortKey},
    (∀ k ∈ keys, KeyOrdered known k) →
      comparePositions keys i j = .ok .less ∨ comparePositions keys j i = .ok .less
  | [], _ => by
    rw [comparePositions_less_iff, comparePositions_less_iff]
    exact (lt_or_gt_of_ne apart).imp (fun h => .inr ⟨nofun, h⟩) fun h => .inr ⟨nofun, h⟩
  | k :: r, ordered => by
    obtain ⟨order, rest⟩ := List.forall_mem_cons.1 ordered
    rw [comparePositions_cons, comparePositions_cons, ties_iff, ties_iff, order.rises_iff hi hj,
      order.rises_iff hj hi]
    have decided := comparePositions_total hi hj apart rest
    tauto

/-- What comes before a row comes before all rows behind it. -/
theorem comparePositions_trans (hi : known i) (hj : known j) (hl : known l) : ∀ {keys : List SortKey},
    (∀ k ∈ keys, KeyOrdered known k) → comparePositions keys i j = .ok .less →
      comparePositions keys j l = .ok .less → comparePositions keys i l = .ok .less
  | [], _, first, second => by
    rw [comparePositions_less_iff] at first second ⊢
    have less := (first.resolve_left (not_sortsBefore_nil _ _)).2
    exact .inr ⟨nofun, less.trans (second.resolve_left (not_sortsBefore_nil _ _)).2⟩
  | k :: r, ordered, first, second => by
    obtain ⟨order, rest⟩ := List.forall_mem_cons.1 ordered
    rw [comparePositions_cons, ties_iff] at first second ⊢
    rw [order.rises_iff hi hj] at first
    rw [order.rises_iff hj hl] at second
    rw [order.rises_iff hi hl]
    by_cases back : NotAfter k l i
    · have jl : NotAfter k j l := (order.total hj hl).elim id fun h => second.elim (absurd h) fun h => h.1.1
      have ji : NotAfter k j i := order.trans hj hl hi jl back
      obtain ⟨⟨ij, -⟩, first⟩ := first.resolve_left (not_not_intro ji)
      obtain ⟨-, second⟩ := second.resolve_left (not_not_intro (order.trans hl hi hj back ij))
      exact .inr ⟨⟨order.trans hi hj hl ij jl, back⟩, comparePositions_trans hi hj hl rest first second⟩
    · exact .inl back

/-- What is put before a row by the keys is put before all rows that tie with it or come behind it. -/
theorem SortsBefore.trans (hi : known i) (hj : known j) (hl : known l) : ∀ {keys : List SortKey},
    (∀ k ∈ keys, KeyOrdered known k) → SortsBefore keys i j → SortsBefore keys j l ∨ Tied keys j l →
      SortsBefore keys i l
  | [], _, first, _ => absurd first (not_sortsBefore_nil _ _)
  | k :: r, ordered, first, second => by
    obtain ⟨order, rest⟩ := List.forall_mem_cons.1 ordered
    rw [sortsBefore_cons, ties_iff] at first second ⊢
    rw [Tied, List.forall_mem_cons, ties_iff] at second
    rw [order.rises_iff hi hj] at first
    rw [order.rises_iff hj hl] at second
    rw [order.rises_iff hi hl]
    by_cases back : NotAfter k l i
    · have jl : NotAfter k j l := by
        rcases second with (h | h) | h
        · exact (order.total hj hl).resolve_right h
        · exact h.1.1
        · exact h.1.1
      have ji : NotAfter k j i := order.trans hj hl hi jl back
      obtain ⟨⟨ij, -⟩, first⟩ := first.resolve_left (not_not_intro ji)
      have lj : NotAfter k l j := order.trans hl hi hj back ij
      refine .inr ⟨⟨order.trans hi hj hl ij jl, back⟩, SortsBefore.trans hi hj hl rest first ?_⟩
      exact second.imp (fun h => (h.resolve_left (not_not_intro lj)).2) fun h => h.2
    · exact .inl back

/-- A row that ties with another one is put before all rows that this one is put before. -/
theorem Tied.sortsBefore (hi : known i) (hj : known j) (hl : known l) : ∀ {keys : List SortKey},
    (∀ k ∈ keys, KeyOrdered known k) → Tied keys i j → SortsBefore keys j l → SortsBefore keys i l
  | [], _, _, before => absurd before (not_sortsBefore_nil _ _)
  | k :: r, ordered, tied, before => by
    obtain ⟨order, rest⟩ := List.forall_mem_cons.1 ordered
    obtain ⟨first, others⟩ := List.forall_mem_cons.1 tied
    rw [ties_iff] at first
    rw [sortsBefore_cons, ties_iff] at before ⊢
    rw [order.rises_iff hj hl] at before
    rw [order.rises_iff hi hl]
    rcases before with above | ⟨⟨jl, lj⟩, before⟩
    · exact .inl fun back => above (order.trans hl hi hj back first.1)
    · exact .inr ⟨⟨order.trans hi hj hl first.1 jl, order.trans hl hj hi lj first.2⟩,
        Tied.sortsBefore hi hj hl rest others before⟩

theorem SortsBefore.asymm (hi : known i) (hj : known j) {keys : List SortKey}
    (ordered : ∀ k ∈ keys, KeyOrdered known k) (h : SortsBefore keys i j) : ¬SortsBefore keys j i :=
  fun back => Tied.not_sortsBefore (fun k hk => ties_iff.2
    ⟨((ordered k hk).total hi hi).elim id id, ((ordered k hk).total hi hi).elim id id⟩)
    (h.trans hi hj hi ordered (.inl back))

/-- **Rows are in a total order** if the values of each key are in a total preorder. -/
theorem orders_positions {keys : List SortKey} (ordered : ∀ k ∈ keys, KeyOrdered known k) :
    Orders (comparePositions keys) known where
  total i j hi hj apart := by
    have back : ∀ i j, comparePositions keys i j = .ok .less →
        precedes (comparePositions keys) j i = .ok false := fun i j h => by
      unfold precedes
      rw [comparePositions_flip i j, h]
      rfl
    exact (comparePositions_total hi hj apart ordered).imp (fun h => ⟨h, back i j h⟩)
      fun h => ⟨h, back j i h⟩
  trans i j l hi hj hl := comparePositions_trans hi hj hl ordered

/-- **Arranged rows are in order**: a row comes before another one if a key puts it there, or if they tie
on all keys and it stands first. -/
theorem arrange_pairwise {keys : List SortKey} (ordered : ∀ k ∈ keys, KeyOrdered known k)
    {positions sorted : List Nat} (inside : ∀ i ∈ positions, known i) (distinct : positions.Nodup)
    (h : arrange positions keys = .ok sorted) : Arranged keys sorted :=
  ((orders_positions ordered).sortBy_pairwise inside distinct h).imp fun {_ _} less =>
    comparePositions_less_iff.1 less

end

end QueryAlgebra.Evaluation
