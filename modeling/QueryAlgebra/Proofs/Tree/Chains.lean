import Mathlib.Data.List.Induction
import QueryAlgebra.Proofs.Tree.Accepted

/-!
# Chains of calls

A statement grows by calls, each of which builds it anew from its own clauses with one of them changed.
However long the chain is, the statement is the one that is built at once from the clauses that are asked
for last, and from all conditions joined.

* `Call`, `Source.chain`: calls on a source, one after the other.
* `Clauses.Reads`: what is asked for in clauses; `Source.queryOf_congr`: nothing else counts.
* `Source.Built.reads_own`: a statement asks for what it is made of.
* `Clauses.after`: the clauses that a chain of calls asks for.
* `Source.chain_clauses`: a chain of calls is one statement with these clauses.
-/

namespace QueryAlgebra

/-! ### Calls -/

/-- A call that changes a statement. -/
inductive Call where
  | select  (features : List Operand)
  | filter  (condition : Operand)
  | having  (condition : Operand)
  | groupby (features : List Operand)
  | orderby (specs : List OrderSpec)
  | limit   (count offset : Value)

/-- The clauses of a statement. -/
inductive Clause where
  | selection | prefilter | grouping | postfilter | ordering | rows

/-- The clauses have the same in one place. -/
def Clauses.Same (c d : Clauses) : Clause → Prop
  | .selection  => c.selection = d.selection
  | .prefilter  => c.prefilter = d.prefilter
  | .grouping   => c.grouping = d.grouping
  | .postfilter => c.postfilter = d.postfilter
  | .ordering   => c.ordering = d.ordering
  | .rows       => c.rows = d.rows

/-- A row limit that is asked for without an offset skips no rows. -/
def Limit.asked (count : Value) : Value → Limit
  | .absent => ⟨count, .number (.ofNat 0)⟩
  | offset  => ⟨count, offset⟩

namespace Call

/-- The features in the call are built. -/
def Built : Call → Prop
  | .select fs | .groupby fs => ∀ o ∈ fs, o.Built
  | .filter p | .having p    => p.Built
  | .orderby specs           => ∀ o ∈ specs, o.Built
  | .limit _ _               => True

/-- The clause that a call changes. -/
def clause : Call → Clause
  | .select _  => .selection
  | .filter _  => .prefilter
  | .having _  => .postfilter
  | .groupby _ => .grouping
  | .orderby _ => .ordering
  | .limit _ _ => .rows

/-- The call on a source. -/
def apply (s : Source) : Call → Except Fault Source
  | .select fs          => s.select fs
  | .filter p           => s.filter p
  | .having p           => s.having p
  | .groupby fs         => s.groupby fs
  | .orderby specs      => s.orderby specs
  | .limit count offset => s.limit count offset

/-- What a call makes of clauses. -/
def change (c : Clauses) : Call → Except Fault Clauses
  | .select fs          => .ok { c with selection := fs }
  | .filter p           => do return { c with prefilter := ← Source.conjoin c.prefilter p }
  | .having p           => do return { c with postfilter := ← Source.conjoin c.postfilter p }
  | .groupby fs         => .ok { c with grouping := fs }
  | .orderby specs      => .ok { c with ordering := specs }
  | .limit count offset => .ok { c with rows := some (.asked count offset) }

theorem apply_eq_revise (s : Source) (a : Call) : a.apply s = s.revise a.change := by
  cases a with
  | limit count offset => cases offset <;> rfl
  | _ => rfl

/-- A call leaves all clauses but its own. -/
theorem change_same {c d : Clauses} {a : Call} (h : a.change c = .ok d) {k : Clause}
    (other : k ≠ a.clause) : d.Same c k := by
  cases a with
  | filter p | having p =>
    obtain ⟨_, -, h⟩ := bind_eq_ok.1 h
    obtain rfl := pure_eq_ok.1 h
    cases k <;> first | rfl | exact absurd rfl other
  | _ =>
    obtain rfl := Except.ok.inj h
    cases k <;> first | rfl | exact absurd rfl other

end Call

/-- Calls on a source, one after the other. -/
def Source.chain (s : Source) (calls : List Call) : Except Fault Source := calls.foldlM Call.apply s

/-! ### Conditions -/

/-- All conditions joined, each one to those before it. -/
def Feature.conjunction : List Feature → Option Feature
  | []     => none
  | p :: r => some (r.foldl (fun f q => .expression .and [f, q] none) p)

namespace Feature

theorem conjunction_concat (ps : List Feature) (p : Feature) :
    conjunction (ps ++ [p]) = some (match conjunction ps with
      | none   => p
      | some f => .expression .and [f, p] none) := by
  cases ps with
  | nil => rfl
  | cons q r => simp [conjunction]

/-- A conjunction of features without aliases has none. -/
theorem bare_conjunction {ps : List Feature} (bare : ∀ p ∈ ps, p.bare = p) :
    ∀ f ∈ conjunction ps, f.bare = f := by
  induction ps using List.reverseRecOn with
  | nil => nofun
  | append_singleton ps p _ =>
    rw [conjunction_concat]
    rintro f ⟨⟩
    split
    · exact bare p (by simp)
    · rfl

end Feature

/-- The operand without its alias is the whole one without its alias. -/
theorem Operand.Built.bare_of_whole {o : Operand} {f : Feature} (ho : o.Built) (h : o.whole = .ok f) :
    o.bare = .ok f.bare := by
  cases ho with
  | feature hf => rw [← Except.ok.inj h]; rfl
  | value v =>
    have made : Feature.literalOf v none = .ok f := h
    obtain ⟨_, _, _, rfl⟩ := Feature.literalOf_eq_ok made
    exact made

namespace Source

/-- A condition is joined to what a filter reads, whatever it was written as. -/
theorem conjoin_read {check : Feature → Except Fault Unit} {superset : KeyedSet Feature}
    {owner : String} {filter : Option Operand} {pre : Option Feature} (built : ∀ o ∈ filter, o.Built)
    (read : filterOf check superset owner filter = .ok pre) (condition : Operand) :
    conjoin filter condition = conjoin (pre.map .feature) condition := by
  cases filter with
  | none =>
    obtain rfl : none = pre := by simpa [filterOf] using read
    rfl
  | some o =>
    have some_read : ∃ p, pre = some p := by
      obtain ⟨_, _, _, _, _, _, _, _, rfl⟩ := by simpa [filterOf] using read
      exact ⟨_, rfl⟩
    obtain ⟨p, rfl⟩ := some_read
    obtain ⟨o', ho, f, whole, -, rfl, -⟩ := filterOf_eq_ok read p rfl
    obtain rfl : o = o' := Option.some.inj ho
    have bare := (built o rfl).bare_of_whole whole
    have same : ∀ q : Feature, [o, .feature q].mapM Operand.bare
        = [.feature f.bare, .feature q].mapM Operand.bare := fun q => by
      have again : f.bare.bare = f.bare := ((built o rfl).whole_eq_ok whole).bare.2
      rw [List.mapM_cons, bare, List.mapM_cons]
      simp [Operand.bare, again]
    unfold conjoin
    simp only [Option.map_some, Feature.expr, same]

/-- A condition that is joined to a conjunction makes it longer by one. -/
theorem conjoin_conjunction {ps : List Feature} {p : Feature} {condition : Operand}
    {joined : Option Operand} (bare : ∀ q ∈ ps ++ [p], q.bare = q) (read : condition.bare = .ok p)
    (h : conjoin ((Feature.conjunction ps).map .feature) condition = .ok joined) :
    joined = (Feature.conjunction (ps ++ [p])).map .feature := by
  obtain ⟨q, hq, h⟩ := bind_eq_ok.1 h
  obtain rfl : p = q := Except.ok.inj (read.symm.trans hq)
  rw [Feature.conjunction_concat]
  cases before : Feature.conjunction ps with
  | none =>
    rw [before] at h
    exact (pure_eq_ok.1 h).symm
  | some f =>
    rw [before] at h
    obtain ⟨g, made, h⟩ := bind_eq_ok.1 h
    obtain ⟨args, hargs, -, -, -, rfl⟩ := Feature.expr_eq_ok made
    have single : f.bare = f := Feature.bare_conjunction (fun q hq => bare q (by simp [hq])) f before
    obtain rfl : [f, p] = args := by
      have last : p.bare = p := bare p (by simp)
      simpa [Operand.bare, single, last] using hargs
    exact (pure_eq_ok.1 h).symm

end Source

/-! ### Clauses as they are read -/

/-- A natural number that is a number is read from that. -/
theorem Value.natural?_ofNat {n : Nat} (exact : Number.Exact n) :
    (Value.number (.ofNat n)).natural? = some n := by
  obtain ⟨m, steps⟩ := exact
  rw [Number.ofNat_of_steps steps]
  exact Value.natural?_eq_some.2 ⟨false, m, rfl, steps, nofun⟩

/-- A row limit is asked for by its own numbers. -/
theorem RowRange.toRange_toLimit (r : RowRange) (exact : r.Exact) (owner : String) :
    r.toLimit.toRange owner = .ok r := by
  unfold toLimit
  -- The numbers themselves are not to be computed.
  generalize hc : Value.number (.ofNat r.count) = c
  generalize ho : Value.number (.ofNat r.offset) = o
  exact Limit.toRange_of_natural (hc ▸ Value.natural?_ofNat exact.1) (ho ▸ Value.natural?_ofNat exact.2)

/-- What a source reads in clauses. -/
structure Clauses.Reads (c : Clauses) (s : Source) (sel : List Feature) (pre : Option Feature)
    (grp : List Feature) (post : Option Feature) (ord : List OrderTerm) (rows : Option RowRange) :
    Prop where
  selection  : c.selection.mapM Operand.whole = .ok sel
  prefilter  : filterOf Feature.refuseCollective (elementsIn s.features) s.text c.prefilter = .ok pre
  grouping   : c.grouping.mapM Operand.bare = .ok grp
  postfilter : filterOf Feature.refuseWindow (elementsIn s.features) s.text c.postfilter = .ok post
  ordering   : OrderTerm.make c.ordering = .ok ord
  rows       : c.rows.mapM (Limit.toRange · s.text) = .ok rows

namespace Source

variable {s q : Source} {c d : Clauses} {sel sel' : List Feature} {pre pre' : Option Feature}
  {grp grp' : List Feature} {post post' : Option Feature} {ord ord' : List OrderTerm}
  {rows rows' : Option RowRange}

/-- **Nothing counts in clauses but what is read in them.** -/
theorem queryOf_congr (selection : c.selection.mapM Operand.whole = d.selection.mapM Operand.whole)
    (prefilter : filterOf Feature.refuseCollective (elementsIn s.features) s.text c.prefilter
      = filterOf Feature.refuseCollective (elementsIn s.features) s.text d.prefilter)
    (grouping : c.grouping.mapM Operand.bare = d.grouping.mapM Operand.bare)
    (postfilter : filterOf Feature.refuseWindow (elementsIn s.features) s.text c.postfilter
      = filterOf Feature.refuseWindow (elementsIn s.features) s.text d.postfilter)
    (ordering : OrderTerm.make c.ordering = OrderTerm.make d.ordering)
    (rows : c.rows.mapM (Limit.toRange · s.text) = d.rows.mapM (Limit.toRange · s.text)) :
    s.queryOf c = s.queryOf d := by
  have some_ne_none : ∀ l : Limit, (some <$> l.toRange s.text : Except Fault _) ≠ .ok none := fun l h => by
    obtain ⟨_, _, h⟩ := map_eq_ok.1 h
    cases h
  obtain ⟨_, _, _, _, _, limit⟩ := c
  obtain ⟨_, _, _, _, _, limit'⟩ := d
  dsimp only at selection prefilter grouping postfilter ordering
  simp only [queryOf, selection, prefilter, grouping, postfilter, ordering]
  cases limit with
  | none =>
    cases limit' with
    | none => rfl
    | some m => exact absurd rows.symm (some_ne_none m)
  | some l =>
    cases limit' with
    | none => exact absurd rows (some_ne_none l)
    | some m =>
      have ranges : some <$> l.toRange s.text = some <$> m.toRange s.text := rows
      simp only [ranges]

/-- A statement is made of what is read in the clauses. -/
theorem reads_of_queryOf (h : s.queryOf c = .ok (.query s sel pre grp post ord rows)) :
    c.Reads s sel pre grp post ord rows := by
  obtain ⟨_, _, _, _, _, _, made, selection, -, prefilter, grouping, -, -, -, postfilter, ordering, -,
    asked⟩ := queryOf_eq_ok h
  cases made
  exact ⟨selection, prefilter, grouping, postfilter, ordering, asked⟩

theorem mapM_some_toRange {l : Limit} {owner : String} {r : RowRange} (h : l.toRange owner = .ok r) :
    (some l).mapM (Limit.toRange · owner) = .ok (some r) := by simp [h]

/-- Row limits are asked for by their own numbers. -/
theorem mapM_toLimit {owner : String} (exact : ∀ r ∈ rows, r.Exact) :
    (rows.map RowRange.toLimit).mapM (Limit.toRange · owner) = .ok rows := by
  cases rows with
  | none => rfl
  | some r => exact mapM_some_toRange (r.toRange_toLimit (exact r rfl) owner)

/-- What is read in clauses is what a statement with them is made of. -/
theorem Built.reads_own (h : (Source.query s sel pre grp post ord rows).Built) :
    (Source.query s sel pre grp post ord rows).clauses.2.Reads s sel pre grp post ord rows := by
  have made := h.inv_query
  have exact : ∀ r ∈ rows, r.Exact := fun r hr => by
    obtain ⟨l, hl⟩ := made.rows r hr
    exact Limit.exact_of_toRange hl
  exact ⟨Operand.mapM_whole sel, filterOf_of_condition made.prefilter,
    mapM_bare fun f hf => (made.grouping f hf).2.1, filterOf_of_condition made.postfilter,
    OrderTerm.make_terms ord, mapM_toLimit exact⟩

/-! ### One call -/

/-- A condition that is joined to a filter is built. -/
theorem conjoin_built {filter joined : Option Operand} {condition : Operand}
    (known : ∀ o ∈ filter, o.Built) (built : condition.Built)
    (h : conjoin filter condition = .ok joined) : ∀ o ∈ joined, o.Built := by
  obtain ⟨p, hp, h⟩ := bind_eq_ok.1 h
  have single := (built.bare_eq_ok hp).1
  cases filter with
  | none =>
    obtain rfl := pure_eq_ok.1 h
    rintro o ⟨⟩
    exact .feature single
  | some f =>
    obtain ⟨g, made, h⟩ := bind_eq_ok.1 h
    obtain rfl := pure_eq_ok.1 h
    rintro o ⟨⟩
    refine .feature (.expression (List.forall_mem_cons.2 ⟨known f rfl, ?_⟩) made)
    simpa using .feature single

/-- Built clauses stay so. -/
theorem change_built {a : Call} (hc : c.Built) (ha : a.Built) (h : a.change c = .ok d) : d.Built := by
  obtain ⟨selection, prefilter, grouping, postfilter, ordering⟩ := hc
  cases a with
  | select fs => exact Except.ok.inj h ▸ .mk ha prefilter grouping postfilter ordering
  | groupby fs => exact Except.ok.inj h ▸ .mk selection prefilter ha postfilter ordering
  | orderby specs => exact Except.ok.inj h ▸ .mk selection prefilter grouping postfilter ha
  | limit count offset => exact Except.ok.inj h ▸ .mk selection prefilter grouping postfilter ordering
  | filter p =>
    obtain ⟨joined, made, h⟩ := bind_eq_ok.1 h
    exact pure_eq_ok.1 h ▸ .mk selection (conjoin_built prefilter ha made) grouping postfilter ordering
  | having p =>
    obtain ⟨joined, made, h⟩ := bind_eq_ok.1 h
    exact pure_eq_ok.1 h ▸ .mk selection prefilter grouping (conjoin_built postfilter ha made) ordering

/-- **A call makes the same of clauses that are read alike.** -/
theorem change_congr (hc : c.Built) (hd : d.Built) (read : c.Reads s sel pre grp post ord rows)
    (read' : d.Reads s sel pre grp post ord rows) (a : Call) :
    a.change c >>= s.queryOf = a.change d >>= s.queryOf := by
  obtain ⟨-, prefilters, -, postfilters, -⟩ := hc
  obtain ⟨-, prefilters', -, postfilters', -⟩ := hd
  have selection := read.selection.trans read'.selection.symm
  have prefilter := read.prefilter.trans read'.prefilter.symm
  have grouping := read.grouping.trans read'.grouping.symm
  have postfilter := read.postfilter.trans read'.postfilter.symm
  have ordering := read.ordering.trans read'.ordering.symm
  have rows := read.rows.trans read'.rows.symm
  cases a with
  | select fs => exact queryOf_congr rfl prefilter grouping postfilter ordering rows
  | groupby fs => exact queryOf_congr selection prefilter rfl postfilter ordering rows
  | orderby specs => exact queryOf_congr selection prefilter grouping postfilter rfl rows
  | limit count offset => exact queryOf_congr selection prefilter grouping postfilter ordering rfl
  | filter p =>
    have joined : conjoin c.prefilter p = conjoin d.prefilter p :=
      (conjoin_read prefilters read.prefilter p).trans (conjoin_read prefilters' read'.prefilter p).symm
    simp only [Call.change, joined, bind_assoc, pure_bind]
    exact bind_congr fun f => queryOf_congr selection rfl grouping postfilter ordering rows
  | having p =>
    have joined : conjoin c.postfilter p = conjoin d.postfilter p :=
      (conjoin_read postfilters read.postfilter p).trans
        (conjoin_read postfilters' read'.postfilter p).symm
    simp only [Call.change, joined, bind_assoc, pure_bind]
    exact bind_congr fun f => queryOf_congr selection prefilter grouping rfl ordering rows

/-! ### Chains of calls -/

/-- A statement is made again of its own clauses. -/
theorem Built.own_again (h : (Source.query s sel pre grp post ord rows).Built) :
    s.queryOf (Source.query s sel pre grp post ord rows).clauses.2
      = .ok (Source.query s sel pre grp post ord rows) := by
  have own := h.reads_own
  cases h with
  | joined _ _ _ h => obtain ⟨_, _, hs, _⟩ := joined_eq_ok h; cases hs
  | combined _ _ h => obtain ⟨_, _, _, _, _, hs⟩ := combined_eq_ok h; cases hs
  | query _ _ made =>
    obtain ⟨_, _, _, _, _, _, hq, _⟩ := queryOf_eq_ok made
    cases hq
    have read := reads_of_queryOf made
    rw [← made]
    exact queryOf_congr (own.selection.trans read.selection.symm)
      (own.prefilter.trans read.prefilter.symm) (own.grouping.trans read.grouping.symm)
      (own.postfilter.trans read.postfilter.symm) (own.ordering.trans read.ordering.symm)
      (own.rows.trans read.rows.symm)

/-- A source without clauses gives a statement without clauses. -/
theorem queryOf_empty (h : s.queryOf .empty = .ok q) : q = .query s [] none [] none [] none := by
  obtain ⟨sel, pre, grp, post, ord, rows, rfl, selection, -, prefilter, grouping, -, -, -, postfilter,
    ordering, -, limit⟩ := queryOf_eq_ok h
  obtain rfl := pure_eq_ok.1 selection
  obtain rfl := Except.ok.inj prefilter
  obtain rfl := pure_eq_ok.1 grouping
  obtain rfl := Except.ok.inj postfilter
  obtain rfl := Except.ok.inj ordering
  obtain rfl := pure_eq_ok.1 limit
  rfl

/-- A source has the clauses that it has as a statement. -/
theorem clauses_statement (h : s.statement = .ok q) : q.clauses = s.clauses := by
  cases s with
  | query => exact congrArg clauses (Except.ok.inj h).symm
  | _ => rw [queryOf_empty h]; rfl

theorem Built.clauses (hs : s.Built) : s.clauses.1.Built ∧ s.clauses.2.Built ∧
    s.clauses.1.queryOf s.clauses.2 = s.statement := by
  cases s with
  | query => exact ⟨hs.inv_query.source, hs.own_clauses, hs.own_again⟩
  | _ => exact ⟨hs, Clauses.empty_built, rfl⟩

/-- **One more call**: what is made of a statement by a call is what is made of the clauses that the
statement was made of. -/
theorem apply_eq {base : Source} {a : Call} (hbase : base.Built) (hc : c.Built)
    (made : base.queryOf c = s.statement) (h : a.apply s = .ok q) :
    ∃ d, a.change c = .ok d ∧ base.queryOf d = .ok q := by
  rw [Call.apply_eq_revise] at h
  obtain ⟨st, hst, h⟩ := bind_eq_ok.1 h
  rw [hst] at made
  obtain ⟨sel, pre, grp, post, ord, rows, rfl, -⟩ := queryOf_eq_ok made
  have built : (Source.query base sel pre grp post ord rows).Built := .query hbase hc made
  have same := change_congr built.own_clauses hc built.reads_own (reads_of_queryOf made) a
  exact bind_eq_ok.1 (same.symm.trans h)

/-- **A chain of calls is one statement**, with the clauses that the calls make one after the other. -/
theorem chain_changes (hs : s.Built) {calls : List Call} (known : ∀ a ∈ calls, a.Built)
    (h : s.chain calls = .ok q) : ∃ c, calls.foldlM Call.change s.clauses.2 = .ok c ∧ c.Built ∧
      s.clauses.1.queryOf c = q.statement ∧ (calls ≠ [] → q.statement = .ok q) := by
  obtain ⟨base, own, made⟩ := hs.clauses
  induction calls using List.reverseRecOn generalizing q with
  | nil =>
    obtain rfl := pure_eq_ok.1 h
    exact ⟨_, rfl, own, made, fun none => absurd rfl none⟩
  | append_singleton calls a ih =>
    rw [chain, List.foldlM_append] at h
    obtain ⟨t, ht, h⟩ := bind_eq_ok.1 h
    have h : a.apply t = .ok q := by simpa using h
    obtain ⟨c, changed, built, before, -⟩ := ih (fun a ha => known a (List.mem_append_left _ ha)) ht
    obtain ⟨d, change, after⟩ := apply_eq base built before h
    have statement : q.statement = .ok q := by
      obtain ⟨_, _, _, _, _, _, rfl, -⟩ := queryOf_eq_ok after
      rfl
    refine ⟨d, ?_, change_built built (known a (by simp)) change, after.trans statement.symm,
      fun _ => statement⟩
    rw [List.foldlM_append, changed]
    simpa using change

end Source

/-! ### The clauses of a chain -/

namespace Call

def selection? : Call → Option (List Operand)
  | .select fs => some fs
  | _          => none

def condition? : Call → Option Operand
  | .filter p => some p
  | _         => none

def grouping? : Call → Option (List Operand)
  | .groupby fs => some fs
  | _           => none

def groupCondition? : Call → Option Operand
  | .having p => some p
  | _         => none

def ordering? : Call → Option (List OrderSpec)
  | .orderby specs => some specs
  | _              => none

def rows? : Call → Option Limit
  | .limit count offset => some (.asked count offset)
  | _                   => none

end Call

namespace Clauses

/-- The conditions on rows, the oldest first. -/
def conditions (c : Clauses) (calls : List Call) : List Operand :=
  c.prefilter.toList ++ calls.filterMap Call.condition?

/-- The conditions on groups, the oldest first. -/
def groupConditions (c : Clauses) (calls : List Call) : List Operand :=
  c.postfilter.toList ++ calls.filterMap Call.groupCondition?

/-- The features, the keys, the ordering and the row limit that calls ask for last, or else those that
are there, under all conditions joined. -/
def asked (c : Clauses) (calls : List Call) (ps qs : List Feature) : Clauses where
  selection  := (calls.filterMap Call.selection?).getLastD c.selection
  prefilter  := (Feature.conjunction ps).map .feature
  grouping   := (calls.filterMap Call.grouping?).getLastD c.grouping
  postfilter := (Feature.conjunction qs).map .feature
  ordering   := (calls.filterMap Call.ordering?).getLastD c.ordering
  rows       := (calls.filterMap Call.rows?).getLast?.or c.rows

/-- The clauses that calls ask for on top of those that are there. -/
def after (c : Clauses) (calls : List Call) : Except Fault Clauses := do
  let ps ← (c.conditions calls).mapM Operand.bare
  let qs ← (c.groupConditions calls).mapM Operand.bare
  return c.asked calls ps qs

theorem after_eq_ok {c d : Clauses} {calls : List Call} : c.after calls = .ok d ↔
    ∃ ps qs, (c.conditions calls).mapM Operand.bare = .ok ps ∧
      (c.groupConditions calls).mapM Operand.bare = .ok qs ∧ c.asked calls ps qs = d := by
  simp only [after, bind_eq_ok, pure_eq_ok, exists_and_left]

/-- The filters have no aliases. -/
def Plain (c : Clauses) : Prop := ∃ pre post : Option Feature, c.prefilter = pre.map .feature ∧
  c.postfilter = post.map .feature ∧ (∀ p ∈ pre, p.bare = p) ∧ ∀ p ∈ post, p.bare = p

theorem mapM_bare_toList {filter : Option Operand} {pre : Option Feature}
    (h : filter = pre.map .feature) (bare : ∀ p ∈ pre, p.bare = p) :
    filter.toList.mapM Operand.bare = .ok pre.toList := by
  subst h
  cases pre with
  | none => rfl
  | some p => simp [Operand.bare, bare p rfl]

/-- Without calls the clauses stay. -/
theorem after_nil {c : Clauses} (plain : c.Plain) : c.after [] = .ok c := by
  obtain ⟨pre, post, hpre, hpost, bare, bare'⟩ := plain
  have single : ∀ o : Option Feature, Feature.conjunction o.toList = o := fun o => by cases o <;> rfl
  refine after_eq_ok.2 ⟨pre.toList, post.toList, ?_, ?_, ?_⟩
  · simpa [conditions] using mapM_bare_toList hpre bare
  · simpa [groupConditions] using mapM_bare_toList hpost bare'
  · rw [asked, single, single, ← hpre, ← hpost]
    rfl

theorem filterMap_concat {α β : Type} (f : α → Option β) (as : List α) (a : α) :
    (as ++ [a]).filterMap f = as.filterMap f ++ (f a).toList := by
  rw [List.filterMap_append]
  cases h : f a <;> simp [h]

/-- One more condition is joined to all others. -/
theorem joined_concat {conditions : List Operand} {ps : List Feature} {condition : Operand}
    {joined : Option Operand} (known : ∀ o ∈ conditions, o.Built) (built : condition.Built)
    (read : conditions.mapM Operand.bare = .ok ps)
    (h : Source.conjoin ((Feature.conjunction ps).map .feature) condition = .ok joined) :
    ∃ p, (conditions ++ [condition]).mapM Operand.bare = .ok (ps ++ [p]) ∧
      (Feature.conjunction (ps ++ [p])).map .feature = joined := by
  obtain ⟨p, hp, -⟩ := bind_eq_ok.1 h
  refine ⟨p, ?_, (Source.conjoin_conjunction (List.forall_mem_append.2 ⟨fun q hq => ?_, ?_⟩) hp h).symm⟩
  · rw [List.mapM_append, read]
    simp [hp]
  · exact (Feature.Built.forall_bare known read q hq).2
  · simpa using (built.bare_eq_ok hp).2

/-- **One more call** changes the clause that it asks for. -/
theorem after_concat {c d e : Clauses} {calls : List Call} {a : Call}
    (conditions : ∀ o ∈ c.conditions calls, o.Built)
    (groupConditions : ∀ o ∈ c.groupConditions calls, o.Built) (built : a.Built)
    (before : c.after calls = .ok d) (h : a.change d = .ok e) : c.after (calls ++ [a]) = .ok e := by
  obtain ⟨ps, qs, hps, hqs, rfl⟩ := after_eq_ok.1 before
  rw [after_eq_ok]
  simp only [Clauses.conditions, Clauses.groupConditions, asked, filterMap_concat] at *
  cases a with
  | filter condition =>
    obtain ⟨joined, made, h⟩ := bind_eq_ok.1 h
    obtain ⟨p, read, rfl⟩ := joined_concat conditions built hps made
    obtain rfl := pure_eq_ok.1 h
    refine ⟨ps ++ [p], qs, by simpa [Call.condition?] using read,
      by simpa [Call.groupCondition?] using hqs, ?_⟩
    simp [Call.selection?, Call.grouping?, Call.ordering?, Call.rows?]
  | having condition =>
    obtain ⟨joined, made, h⟩ := bind_eq_ok.1 h
    obtain ⟨q, read, rfl⟩ := joined_concat groupConditions built hqs made
    obtain rfl := pure_eq_ok.1 h
    refine ⟨ps, qs ++ [q], by simpa [Call.condition?] using hps,
      by simpa [Call.groupCondition?] using read, ?_⟩
    simp [Call.selection?, Call.grouping?, Call.ordering?, Call.rows?]
  | _ =>
    obtain rfl := Except.ok.inj h
    refine ⟨ps, qs, by simpa [Call.condition?] using hps, by simpa [Call.groupCondition?] using hqs, ?_⟩
    simp [Call.selection?, Call.grouping?, Call.ordering?, Call.rows?]

/-- The operands that calls hold are built if the calls are. -/
theorem built_filterMap {f : Call → Option Operand} (inside : ∀ a o, f a = some o → a.Built → o.Built)
    {calls : List Call} (known : ∀ a ∈ calls, a.Built) : ∀ o ∈ calls.filterMap f, o.Built := by
  intro o ho
  obtain ⟨a, ha, hfa⟩ := List.mem_filterMap.1 ho
  exact inside a o hfa (known a ha)

/-- **What the calls make of clauses one after the other** is what they ask for. -/
theorem after_of_changes {c d : Clauses} (hc : c.Built) (plain : c.Plain) {calls : List Call}
    (known : ∀ a ∈ calls, a.Built) (h : calls.foldlM Call.change c = .ok d) : c.after calls = .ok d := by
  obtain ⟨-, prefilter, -, postfilter, -⟩ := hc
  induction calls using List.reverseRecOn generalizing d with
  | nil =>
    obtain rfl := pure_eq_ok.1 h
    exact after_nil plain
  | append_singleton calls a ih =>
    obtain ⟨others, own⟩ := List.forall_mem_append.1 known
    rw [List.foldlM_append] at h
    obtain ⟨e, he, h⟩ := bind_eq_ok.1 h
    have conditions : ∀ o ∈ c.conditions calls, o.Built :=
      List.forall_mem_append.2 ⟨by simpa using prefilter,
        built_filterMap (fun a o h ha => by cases a <;> cases h; exact ha) others⟩
    have groupConditions : ∀ o ∈ c.groupConditions calls, o.Built :=
      List.forall_mem_append.2 ⟨by simpa using postfilter,
        built_filterMap (fun a o h ha => by cases a <;> cases h; exact ha) others⟩
    exact after_concat conditions groupConditions (own a (by simp)) (ih others he) (by simpa using h)

/-! ### Calls on different clauses -/

theorem filterMap_swap {β : Type} (f : Call → Option β) {a b : Call} (h : f a = none ∨ f b = none)
    (before rest : List Call) :
    (before ++ a :: b :: rest).filterMap f = (before ++ b :: a :: rest).filterMap f := by
  rcases h with h | h <;> simp [List.filterMap_cons, h]

/-- Calls on different clauses ask for the same in either order. -/
theorem after_swap (c : Clauses) {a b : Call} (apart : a.clause ≠ b.clause) (before rest : List Call) :
    c.after (before ++ a :: b :: rest) = c.after (before ++ b :: a :: rest) := by
  have swap : ∀ {β : Type} (f : Call → Option β) (k : Clause),
      (∀ a : Call, a.clause ≠ k → f a = none) →
        (before ++ a :: b :: rest).filterMap f = (before ++ b :: a :: rest).filterMap f := by
    intro β f k own
    refine filterMap_swap f ?_ before rest
    by_cases first : a.clause = k
    · exact .inr (own b fun second => apart (first.trans second.symm))
    · exact .inl (own a first)
  simp only [after, conditions, groupConditions, asked,
    swap Call.selection? .selection fun a h => by cases a <;> first | rfl | exact absurd rfl h,
    swap Call.condition? .prefilter fun a h => by cases a <;> first | rfl | exact absurd rfl h,
    swap Call.grouping? .grouping fun a h => by cases a <;> first | rfl | exact absurd rfl h,
    swap Call.groupCondition? .postfilter fun a h => by cases a <;> first | rfl | exact absurd rfl h,
    swap Call.ordering? .ordering fun a h => by cases a <;> first | rfl | exact absurd rfl h,
    swap Call.rows? .rows fun a h => by cases a <;> first | rfl | exact absurd rfl h]

end Clauses

namespace Source

variable {s q : Source} {sel sel' : List Feature} {pre pre' : Option Feature} {grp grp' : List Feature}
  {post post' : Option Feature} {ord ord' : List OrderTerm} {rows rows' : Option RowRange}

/-- A source has no aliases in its filters. -/
theorem Built.plain (hs : s.Built) : s.clauses.2.Plain := by
  cases s with
  | query =>
    have made := hs.inv_query
    exact ⟨_, _, rfl, rfl, fun p hp => (made.prefilter p hp).bare, fun p hp => (made.postfilter p hp).bare⟩
  | _ => exact ⟨none, none, rfl, rfl, nofun, nofun⟩

/-- Statements that are made of clauses which have the same in one place have the same there. -/
theorem same_of_reads {base : Source} {c d : Clauses} {k : Clause}
    (read : c.Reads base sel pre grp post ord rows)
    (read' : d.Reads base sel' pre' grp' post' ord' rows') (same : c.Same d k) :
    (Source.query base sel pre grp post ord rows).clauses.2.Same
      (Source.query base sel' pre' grp' post' ord' rows').clauses.2 k := by
  cases k with
  | selection =>
    obtain rfl := Except.ok.inj (read.selection.symm.trans ((congrArg _ same).trans read'.selection))
    rfl
  | prefilter =>
    obtain rfl := Except.ok.inj (read.prefilter.symm.trans ((congrArg _ same).trans read'.prefilter))
    rfl
  | grouping =>
    obtain rfl := Except.ok.inj (read.grouping.symm.trans ((congrArg _ same).trans read'.grouping))
    rfl
  | postfilter =>
    obtain rfl := Except.ok.inj (read.postfilter.symm.trans ((congrArg _ same).trans read'.postfilter))
    rfl
  | ordering =>
    obtain rfl := Except.ok.inj (read.ordering.symm.trans ((congrArg _ same).trans read'.ordering))
    rfl
  | rows =>
    obtain rfl := Except.ok.inj (read.rows.symm.trans ((congrArg _ same).trans read'.rows))
    rfl

/-- **A call changes no other clause**, and not the source that the statement is over. -/
theorem apply_frame (hs : s.Built) {a : Call} (h : a.apply s = .ok q) :
    q.clauses.1 = s.clauses.1 ∧ ∀ k, k ≠ a.clause → q.clauses.2.Same s.clauses.2 k := by
  rw [Call.apply_eq_revise] at h
  obtain ⟨st, hst, h⟩ := bind_eq_ok.1 h
  have built := hs.statement hst
  rw [← clauses_statement hst]
  have kind := type_of_statement hst
  cases st with
  | query base sel pre grp post ord rows =>
    obtain ⟨d, change, made⟩ := bind_eq_ok.1 h
    obtain ⟨_, _, _, _, _, _, rfl, -⟩ := queryOf_eq_ok made
    exact ⟨rfl, fun k other =>
      same_of_reads (reads_of_queryOf made) built.reads_own (Call.change_same change other)⟩
  | _ => simp [type] at kind

/-- **A chain of calls is its clauses.** A statement that calls have made of a source, one after the
other, is the one that is made at once: over what the source is over, of the features, the keys, the
ordering and the row limit that are asked for last, and of all conditions on rows and on groups, each
joined to those before it. So calls on different clauses may change places, and a call changes the source
and the other clauses of no statement. -/
theorem chain_clauses (hs : s.Built) :
    (∀ {calls : List Call} {q : Source}, (∀ a ∈ calls, a.Built) → s.chain calls = .ok q →
      ∃ c, s.clauses.2.after calls = .ok c ∧ s.clauses.1.queryOf c = q.statement ∧
        (calls ≠ [] → q.statement = .ok q)) ∧
    (∀ {before rest : List Call} {a b : Call} {q q' : Source}, a.clause ≠ b.clause →
      (∀ c ∈ before ++ a :: b :: rest, c.Built) → s.chain (before ++ a :: b :: rest) = .ok q →
        s.chain (before ++ b :: a :: rest) = .ok q' → q = q') ∧
    ∀ {a : Call} {q : Source}, a.apply s = .ok q →
      q.clauses.1 = s.clauses.1 ∧ ∀ k, k ≠ a.clause → q.clauses.2.Same s.clauses.2 k := by
  have single : ∀ {calls : List Call} {q : Source}, (∀ a ∈ calls, a.Built) → s.chain calls = .ok q →
      ∃ c, s.clauses.2.after calls = .ok c ∧ s.clauses.1.queryOf c = q.statement ∧
        (calls ≠ [] → q.statement = .ok q) := by
    intro calls q known h
    obtain ⟨c, changed, -, made, statement⟩ := chain_changes hs known h
    exact ⟨c, Clauses.after_of_changes hs.clauses.2.1 hs.plain known changed, made, statement⟩
  refine ⟨single, ?_, apply_frame hs⟩
  intro before rest a b q q' apart known h h'
  have known' : ∀ c ∈ before ++ b :: a :: rest, c.Built := fun c hc => known c (by
    simp only [List.mem_append, List.mem_cons] at hc ⊢
    tauto)
  obtain ⟨c, after, made, statement⟩ := single known h
  obtain ⟨c', after', made', statement'⟩ := single known' h'
  rw [Clauses.after_swap _ apart] at after
  obtain rfl := Except.ok.inj (after.symm.trans after')
  have both : q.statement = q'.statement := made.symm.trans made'
  rw [statement (by simp), statement' (by simp)] at both
  exact Except.ok.inj both

/-- The names of all who have a score, by two conditions with the ordering between them or before them. -/
theorem chain_clauses_of_roster :
    let name : Feature := .element roster "name" (.primitive .string)
    let score : Feature := .element roster "score" (.primitive .integer)
    let known (f : Feature) : Feature := .expression .notNull [f] none
    let first : Call := .filter (.feature (known score))
    let order : Call := .orderby [.feature name]
    let second : Call := .filter (.feature (known name))
    roster.Built ∧ ∃ q c, roster.chain [first, order, second] = .ok q ∧
      roster.chain [order, first, second] = .ok q ∧
      c.prefilter = some (.feature (.expression .and [known score, known name] none)) ∧
      roster.queryOf c = .ok q ∧
      ∃ t, first.apply roster = .ok t ∧ t.clauses.2.Same Clauses.empty .ordering := by
  intro name score known first order second
  have table : roster.Built := .of_distinct rfl
  have hname : name.Built := .element table (show roster.get "name" = .ok name from rfl)
  have hscore : score.Built := .element table (show roster.get "score" = .ok score from rfl)
  have hknown : (known score).Built ∧ (known name).Built :=
    ⟨built_single hscore rfl,
      built_single hname rfl⟩
  have calls : ∀ a ∈ [first, order, second], a.Built := by
    simpa [first, order, second, Call.Built] using
      ⟨.feature hknown.1, .feature hname, .feature hknown.2⟩
  have succeeds : ∀ {x : Except Fault Source}, x.toOption.isSome = true → ∃ q, x = .ok q
    | .ok q, _ => ⟨q, rfl⟩
  obtain ⟨q, hq⟩ := succeeds (x := roster.chain [first, order, second]) (by decide +kernel)
  obtain ⟨q', hq'⟩ := succeeds (x := roster.chain [order, first, second]) (by decide +kernel)
  obtain ⟨single, swap, frame⟩ := Source.chain_clauses table
  obtain ⟨c, after, made, statement⟩ := single calls hq
  obtain rfl := @swap [] [second] first order _ _ nofun calls hq hq'
  rw [statement (by simp)] at made
  have joined : roster.clauses.2.after [first, order, second] = .ok ⟨[], some (.feature
    (.expression .and [known score, known name] none)), [], none, [.feature name], none⟩ := rfl
  obtain rfl := Except.ok.inj (joined.symm.trans after)
  obtain ⟨t, ht⟩ := succeeds (x := first.apply roster) (by decide +kernel)
  exact ⟨table, q, _, hq, hq', rfl, made, t, ht, (frame ht).2 .ordering nofun⟩

end Source
end QueryAlgebra
