/-
No unchecked assignment reaches the caller.

A supervisor does not trust its solver, which may answer anything at any time. Only two of
the ways in which a call can have an outcome (`Yields`) involve an answer, and in both the
answer has passed the audit: one that the session gave by itself keeps its status, one that
it handed over when told to stop gets the status of the interruption. The other ways lead
to outcomes without an assignment.
-/
import Milp.Number.ExtRat
import Milp.Proofs.Supervisor.Calls
import Milp.Proofs.Audit.Outcomes

set_option autoImplicit false

namespace Milp.Supervisor

variable {α : Type} [Number α]

/-! ## Outcomes with an answer behind them -/

/-- An outcome with an assignment has its assignment and its quality from an answer that
the session gave and that passed the audit. -/
theorem Yields.answer {b : Backend α} {options : Options α} {call : Call α} {o : Outcome α}
    (h : Yields b options call o) {a : Assignment α} (there : o.assignment = some a) :
    ∃ session answer passed, call.SetsToWork b session
      ∧ (call.race options session).noticed? = some (.returned answer)
      ∧ Audit.Passes options.tolerance call.model b.name answer passed
      ∧ passed.assignment = some a ∧ o.quality = passed.quality := by
  cases h with
  | noTime session opened noTime => cases there
  | cancelled session opened time cancelled => cases there
  | emptyHanded session works why within race nothing => cases there
  | answered session works answer race _ passes =>
    exact ⟨session, answer, o, works, by rw [race]; rfl, Audit.outcome_eq_ok_iff.mp passes,
      there, rfl⟩
  | handedOver session works why answer race values passed passes =>
    exact ⟨session, answer, passed, works, by rw [race]; rfl, Audit.outcome_eq_ok_iff.mp passes,
      there, rfl⟩

/-- An outcome that is not that of an interruption is the audit's, unchanged. -/
theorem Yields.conclusive {b : Backend α} {options : Options α} {call : Call α} {o : Outcome α}
    (h : Yields b options call o) (status : o.status ≠ .timedOut ∧ o.status ≠ .interrupted) :
    ∃ answer, Audit.Passes options.tolerance call.model b.name answer o := by
  cases h with
  | noTime session opened noTime => exact absurd rfl status.1
  | cancelled session opened time cancelled => exact absurd rfl status.2
  | answered session works answer race _ passes =>
    exact ⟨answer, Audit.outcome_eq_ok_iff.mp passes⟩
  | emptyHanded session works why within race nothing =>
    exact absurd why.status_eq (not_or.mpr status)
  | handedOver session works why answer race values passed passes =>
    exact absurd why.status_eq (not_or.mpr status)

/-! ## What the caller gets -/

/-- **Every assignment has been checked.** Whatever the solver does and however things
happen, if a call has an outcome with an assignment, the session gave an answer with values,
the assignment's values are what the check made of these, and its objective is that of the
model there. An outcome that is optimal or feasible has an assignment; one that is
infeasible or unbounded has none. -/
theorem assignment_of_outcome (s : Supervisor α) (call : Call α) (o : Outcome α)
    (result : (s.serve call).1.result = .ok o) :
    (∀ a, o.assignment = some a →
        ∃ session answer reported, call.SetsToWork s.backend session
          ∧ (call.race s.options session).noticed? = some (.returned answer)
          ∧ answer.values = some reported
          ∧ Audit.check s.options.tolerance call.model reported = .ok (a.values, o.quality)
          ∧ a.names = call.model.vars.map (·.name)
          ∧ a.objective = call.model.objective.evaluate a.values)
      ∧ (o.status = .optimal ∨ o.status = .feasible → o.hasAssignment = true)
      ∧ (o.status = .infeasible ∨ o.status = .unbounded → o.hasAssignment = false) := by
  have yields := result_eq_ok_iff.mp result
  refine ⟨fun a there => ?_, fun promised => ?_, fun denied => ?_⟩
  · obtain ⟨session, answer, passed, works, noticed, passes, ha, hquality⟩ := yields.answer there
    obtain ⟨reported, values, hcheck, hnames, hobjective⟩ := passes.assignment ha
    rw [← hquality] at hcheck
    exact ⟨session, answer, reported, works, noticed, values, hcheck, hnames, hobjective⟩
  · obtain ⟨answer, passes⟩ := yields.conclusive (by rcases promised with h | h <;> simp [h])
    exact passes.hasAssignment promised
  · obtain ⟨answer, passes⟩ := yields.conclusive (by rcases denied with h | h <;> simp [h])
    exact passes.not_hasAssignment denied

/-- Maximize `2 x` for a whole `x` from 0 to 10. -/
def twice : Model ExtRat where
  id := ⟨1⟩
  name := ""
  vars := [⟨"x", .integer, ⟨.fin 0, .fin 10⟩⟩]
  constraints := []
  objective := ⟨.maximize, [(⟨⟨1⟩, 0⟩, .fin 2)], .fin 0⟩

/-- A tenth is near enough. -/
def loose : Options ExtRat := ⟨.auto, none, .fin (1 / 10), .ofMilliseconds 100, none, false⟩

/-- A supervisor of a solver that has one thing to say. -/
def scripted (how : SessionEnd ExtRat) : Supervisor ExtRat := new (.scripted how) loose

/-- An answer whose value is a little below 4, with the objective there. -/
def nearlyFour : Answer ExtRat :=
  ⟨.optimal, some [.fin (39 / 10)], some (.fin (39 / 5)), 3, 5, "", none⟩

/-- The deadline passes, and then the session ends. -/
def lateCall (how : SessionEnd ExtRat) : Call ExtRat where
  model := twice
  budget := ⟨5⟩
  cancelled := false
  course _ _ := ⟨[.deadline, .ended how], _, rfl⟩

/-- The value handed over after the deadline is rounded to 4, and the objective is the one
at 4. -/
theorem assignment_of_outcome_nearlyFour :
    ∃ o, ((scripted (.returned nearlyFour)).serve (lateCall (.returned nearlyFour))).1.result
        = .ok o
      ∧ o.status = .timedOut ∧ o.values? = some [.fin 4] ∧ o.objective? = some (.fin 8)
      ∧ Audit.check (.fin (1 / 10)) twice [.fin (39 / 10)] = .ok ([.fin 4], o.quality) := by
  have hrun : ((scripted (.returned nearlyFour)).serve
      (lateCall (.returned nearlyFour))).1.result.toOption.map
        (fun o => (o.status, o.values?, o.objective?))
      = some (.timedOut, some [.fin 4], some (.fin 8)) := by decide +kernel
  cases result : ((scripted (.returned nearlyFour)).serve
      (lateCall (.returned nearlyFour))).1.result with
  | error fault =>
    rw [result] at hrun
    cases hrun
  | ok o =>
    simp only [result, Except.toOption, Option.map_some, Option.some.injEq, Prod.mk.injEq] at hrun
    obtain ⟨hstatus, hvalues, hobjective⟩ := hrun
    obtain ⟨a, ha, ha'⟩ := Option.map_eq_some_iff.mp hvalues
    obtain ⟨session, answer, reported, -, noticed, hreported, hcheck, -⟩ :=
      (assignment_of_outcome _ _ o result).1 a ha
    obtain rfl : nearlyFour = answer := by cases noticed; rfl
    obtain rfl : [.fin (39 / 10)] = reported := Option.some.inj hreported
    rw [ha'] at hcheck
    exact ⟨o, rfl, hstatus, hvalues, hobjective, hcheck⟩

end Milp.Supervisor
