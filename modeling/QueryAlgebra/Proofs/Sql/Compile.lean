import QueryAlgebra.Proofs.Sql.Inline

/-!
# Which sources become SQL text

* `Sql.Dialect.compiled`: what a translator that has done nothing yet gives for a source.
* `Sql.compiled_iff_ready`: it gives a text exactly when the source is ready; the only thing that can
  be missing is the name of a source.
* `Sql.not_compiled_of_mixed_condition`: a source that is not ready.
-/

namespace QueryAlgebra.Sql

open Translation

/-- What a translator to text that has done nothing yet gives for a source, without symbols that are
provided. -/
def Dialect.compiled (d : Dialect) (s : Source) : Except Fault (Option (Translation.Symbol String String)) :=
  ((Translator.ofBackend (d.backend .empty .empty)).serve (.finish (.source s))).1

theorem Dialect.compiled_eq (d : Dialect) (s : Source) :
    d.compiled s = (eval (directSource (d.backend .empty .empty) s) Bench.fresh).1.map
      fun text => some (.source text) := by
  unfold Dialect.compiled
  rw [Translator.serve_finish _ State.clean_fresh]
  simp only [directFinish, eval_bind]
  have cleared : (Translator.ofBackend (d.backend .empty .empty)).cleared.state.bench
      = Bench.fresh := rfl
  have backend : (Translator.ofBackend (d.backend .empty .empty)).backend
      = d.backend .empty .empty := rfl
  rw [cleared, backend]
  rcases eval (directSource (d.backend .empty .empty) s) Bench.fresh with ⟨_ | _, _⟩ <;> rfl

theorem Dialect.exists_compiled_iff (d : Dialect) (s : Source) :
    (∃ text, d.compiled s = .ok (some (.source text))) ↔
      ∃ text, (eval (directSource (d.backend .empty .empty) s) Bench.fresh).1 = .ok text := by
  rw [d.compiled_eq]
  cases (eval (directSource (d.backend .empty .empty) s) Bench.fresh).1 <;> simp [Except.map]

section

variable (d : Dialect) {s : Source} (built : s.Built) (encodable : s.Obeys .encodable)
include built encodable

theorem accepted_of_encodable : s.Obeys (.acceptedBy (d.backend .empty .empty)) :=
  Source.Built.obeys (d.encodable_accepted .empty .empty) s built encodable

/-- Only the name of a source can be missing. -/
theorem compiled_or_unknown : (∃ text, d.compiled s = .ok (some (.source text))) ∨
    ∃ o : Source, d.compiled s = .error (.unknownMapping o.text) := by
  rcases directSource_or_unknown (d.backend_provides .empty .empty) (d.backend_connects .empty .empty)
    (accepted_of_encodable d built encodable) (w := Bench.fresh) Readings.All.empty with h | ⟨o, ho⟩
  · exact .inl ((d.exists_compiled_iff s).2 h)
  · exact .inr ⟨o, by rw [d.compiled_eq, ho]; rfl⟩

theorem exists_compiled_iff_ready (free : s.Obeys .structFree) :
    (∃ text, d.compiled s = .ok (some (.source text))) ↔ s.Ready [] .empty [] [] := by
  have settled := directSource_settles (d.backend_provides .empty .empty) (d.backend_connects .empty .empty) s built
    (built.distinct free) (accepted_of_encodable d built encodable) Sees.fresh (.inr Readings.All.empty)
  rw [d.exists_compiled_iff]
  constructor
  · rintro ⟨text, htext⟩
    by_contra hready
    obtain ⟨o, ho⟩ := settled.2 hready
    exact absurd (htext.symm.trans ho) (by simp)
  · intro hready
    obtain ⟨text, htext, _⟩ := settled.1 hready
    exact ⟨text, htext⟩

end

/-- **A source of encodable literals and casts becomes text, or the name of a source is missing.**
Without structs it becomes text exactly when it is ready: what is pushed down to a table asks for no
reference that is visited later. In particular it does when all that is pushed down keeps to
tables. -/
theorem compiled_iff_ready (d : Dialect) {s : Source} (built : s.Built)
    (encodable : s.Obeys .encodable) :
    ((∃ text, d.compiled s = .ok (some (.source text))) ∨
      ∃ o : Source, d.compiled s = .error (.unknownMapping o.text)) ∧
    (s.Obeys .structFree →
      ((∃ text, d.compiled s = .ok (some (.source text))) ↔ s.Ready [] .empty [] [])) ∧
    (s.Obeys .structFree → s.Obeys .separate →
      ∃ text, d.compiled s = .ok (some (.source text))) :=
  ⟨compiled_or_unknown d built encodable, exists_compiled_iff_ready d built encodable,
    fun free separate => (exists_compiled_iff_ready d built encodable free).2
      (Source.Obeys.ready s separate Readings.All.empty)⟩

/-- A join whose condition is pushed down to the scan of the table on the right. There the reference on
the left is known, so the join is ready; with its sides exchanged it is not. -/
theorem compiled_iff_ready_of_twin :
    let text : Kind := .primitive .string
    let person : Source := .reference (.table ⟨"person", [("id", ⟨text, "id"⟩)]⟩) "p"
    let twin : Source := .table ⟨"twin", [("id", ⟨text, "id"⟩), ("name", ⟨text, "name"⟩)]⟩
    let condition : Feature := .expression .and [
      .expression .eq [.element twin "id" text, .element person "id" text] none,
      .expression .ne [.element twin "name" text, .literal (.text "Ann") text] none] none
    let both : Source := .join person twin .inner (some condition)
    let exchanged : Source := .join twin person .inner (some condition)
    (∃ text, Dialect.standard.compiled both = .ok (some (.source text))) ∧
      ∃ o : Source, Dialect.standard.compiled exchanged = .error (.unknownMapping o.text) := by
  intro text person twin condition both exchanged
  have hperson : person.Built := .ref "p" (.of_distinct rfl)
  have htwin : twin.Built := .of_distinct rfl
  have hid : (Feature.element twin "id" text).Built :=
    .element htwin (show twin.get "id" = .ok _ from rfl)
  have hname : (Feature.element twin "name" text).Built :=
    .element htwin (show twin.get "name" = .ok _ from rfl)
  have hother : (Feature.element person "id" text).Built :=
    .element hperson (show person.get "id" = .ok _ from rfl)
  have hann : (Feature.literal (.text "Ann") text).Built :=
    .literal (show Feature.literalOf (.text "Ann") none = .ok _ from rfl)
  have hcondition : condition.Built :=
    built_pair (built_pair hid hother rfl) (built_pair hname hann rfl) rfl
  have built : both.Built :=
    hperson.joining htwin hcondition rfl rfl (by decide +kernel) (by decide +kernel)
  have built' : exchanged.Built :=
    htwin.joining hperson hcondition rfl rfl (by decide +kernel) (by decide +kernel)
  have freePerson : person.Obeys .structFree := ⟨trivial, structFree_table rfl⟩
  have freeTwin : twin.Obeys .structFree := structFree_table rfl
  have freeCondition : condition.Obeys .structFree :=
    ⟨nofun, ⟨nofun, ⟨trivial, freeTwin⟩, ⟨trivial, freePerson⟩, trivial⟩,
      ⟨nofun, ⟨trivial, freeTwin⟩, trivial, trivial⟩, trivial⟩
  have encodable : condition.Obeys .encodable :=
    ⟨trivial, ⟨trivial, ⟨trivial, trivial⟩, ⟨trivial, trivial, trivial⟩, trivial⟩,
      ⟨trivial, ⟨trivial, trivial⟩, trivial, trivial⟩, trivial⟩
  refine ⟨((compiled_iff_ready .standard built ⟨trivial, ⟨trivial, trivial⟩, trivial, encodable⟩).2.1
    ⟨trivial, freePerson, freeTwin, freeCondition⟩).2 (by decide +kernel), ?_⟩
  obtain ⟨either, ready, -⟩ := compiled_iff_ready .standard built'
    ⟨trivial, trivial, ⟨trivial, trivial⟩, encodable⟩
  exact either.resolve_left fun made => absurd
    ((ready ⟨trivial, freeTwin, freePerson, freeCondition⟩).1 made) (by decide +kernel)

/-- The name of the source that is missing, if a translation ends for want of one. -/
def unknownName? {α : Type} : Except Fault α → Option String
  | .error (.unknownMapping o) => some o
  | _                          => none

theorem eq_of_unknownName? {α : Type} {r : Except Fault α} {o : String}
    (h : unknownName? r = some o) : r = .error (.unknownMapping o) := by
  unfold unknownName? at h
  split at h
  · cases h; rfl
  · cases h

/-- A condition that compares a column of the left table with an element of a reference on the right
is pushed down to the scan of the table, where the reference is not yet known. -/
theorem not_compiled_of_mixed_condition :
    let student : Source := .table ⟨"student", [("surname", ⟨.primitive .string, "surname"⟩),
      ("dob", ⟨.primitive .date, "birthday"⟩), ("level", ⟨.primitive .integer, "class"⟩),
      ("score", ⟨.primitive .float, "score"⟩), ("school", ⟨.primitive .integer, "school"⟩),
      ("updated", ⟨.primitive .timestamp, "updated"⟩)]⟩
    let school : Source := .reference (.table ⟨"school", [("sid", ⟨.primitive .integer, "id"⟩),
      ("name", ⟨.primitive .string, "name"⟩)]⟩) "s"
    let condition : Feature := .expression .eq [.element student "school" (.primitive .integer),
      .element school "id" (.primitive .integer)] none
    let both : Source := .join student school .inner (some condition)
    both.Built ∧ both.Obeys .encodable ∧ both.Obeys .structFree ∧
      Dialect.standard.compiled both = .error (.unknownMapping "s=[school]") ∧
      ¬∀ (d : Dialect) (s : Source), s.Built → s.Obeys .encodable →
        ∃ text, d.compiled s = .ok (some (.source text)) := by
  intro student school condition both
  have hstudent : student.Built := .of_distinct rfl
  have hschool : school.Built := .ref "s" (.of_distinct rfl)
  have hcondition : condition.Built :=
    built_pair (.element hstudent (show student.get "school" = .ok _ from rfl))
      (.element hschool (show school.get "id" = .ok _ from rfl)) rfl
  have hboth : both.Built :=
    hstudent.joining hschool hcondition rfl rfl (by decide +kernel) (by decide +kernel)
  have encodable : both.Obeys .encodable :=
    ⟨trivial, trivial, ⟨trivial, trivial⟩, trivial, ⟨trivial, trivial⟩, ⟨trivial, trivial, trivial⟩,
      trivial⟩
  have hs : student.Obeys .structFree := structFree_table rfl
  have hr : school.Obeys .structFree := ⟨trivial, structFree_table rfl⟩
  have free : both.Obeys .structFree :=
    ⟨trivial, hs, hr, by simp [Rules.structFree], ⟨trivial, hs⟩, ⟨trivial, hr⟩, trivial⟩
  have missing : Dialect.standard.compiled both = .error (.unknownMapping "s=[school]") :=
    eq_of_unknownName? (by decide +kernel)
  refine ⟨hboth, encodable, free, missing, fun h => ?_⟩
  obtain ⟨text, htext⟩ := h .standard both hboth encodable
  exact absurd (htext.symm.trans missing) (by simp)

end QueryAlgebra.Sql
