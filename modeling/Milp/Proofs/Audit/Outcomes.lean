/-
When an answer has an outcome, and which.

An answer passes the audit in one of three ways (`Passes`). Its status may say that there is
no solution, and then its values are not even looked at. It may have no values where its
status does not promise any. Or its values are accepted: they pass the check against the
model, and the objective that was claimed for them is near the one they have. Nothing else
has an outcome (`outcome_eq_ok_iff`), whatever numbers the answer is written in.
-/
import Milp.Audit
import Milp.Proofs.Attempt

set_option autoImplicit false

namespace Milp

/-- A fault of the audit: an answer does not fit the model. -/
def Fault.IsInconsistent {α : Type} (fault : Fault α) : Prop :=
  ∃ detail, fault = .inconsistentResult detail

namespace Audit

open Attempt (FailsOnly failsOnly_ok failsOnly_error)

variable {α : Type} [Number α]

/-! ## Assignments -/

/-- **What a check consists of**: there is a value for each variable, every value passes, and so
does every constraint. What is found on the way makes the quality. -/
theorem check_ok_iff {tolerance : α} {m : Model α} {values cleaned : List α}
    {quality : Quality α} :
    check tolerance m values = .ok (cleaned, quality)
      ↔ values.length = m.vars.length ∧ ∃ checked violations,
          checkValues tolerance m.vars values = .ok checked
          ∧ m.constraints.mapM (checkConstraint tolerance values) = .ok violations
          ∧ cleaned = checked.map (·.value)
          ∧ quality = ⟨worst (checked.map (·.boundViolation)),
              worst (checked.map (·.integralityGap)), worst violations⟩ := by
  by_cases len : values.length = m.vars.length
  · rw [check, if_neg (not_not.mpr len), Attempt.bind_eq_ok_iff]
    constructor
    · rintro ⟨checked, hchecked, h⟩
      obtain ⟨violations, hviolations, hresult⟩ := Attempt.bind_eq_ok_iff.mp h
      obtain ⟨rfl, rfl⟩ := Prod.mk.inj (Except.ok.inj hresult)
      exact ⟨len, checked, violations, hchecked, hviolations, rfl, rfl⟩
    · rintro ⟨-, checked, violations, hchecked, hviolations, rfl, rfl⟩
      exact ⟨checked, hchecked, Attempt.bind_eq_ok_iff.mpr ⟨violations, hviolations, rfl⟩⟩
  · rw [check, if_pos len]
    exact iff_of_false nofun fun h => len h.1

/-- Values are accepted exactly if they pass the check and the claimed objective, if there
is one, is near the objective of the cleaned values. The assignment consists of the cleaned
values and their objective. -/
theorem accept_eq_ok_iff {tolerance : α} {m : Model α} {backend : String} {claimed : Option α}
    {values : List α} {a : Assignment α} {quality : Quality α} :
    accept tolerance m backend claimed values = .ok (a, quality)
      ↔ check tolerance m values = .ok (a.values, quality)
        ∧ a.names = m.vars.map (·.name)
        ∧ a.objective = m.objective.evaluate a.values
        ∧ ∀ reported, claimed = some reported →
            objectiveDiffers tolerance reported a.objective = false := by
  rw [accept, Attempt.bind_eq_ok_iff]
  constructor
  · rintro ⟨⟨cleaned, quality'⟩, hcheck, h⟩
    cases claimed with
    | none =>
      cases h
      exact ⟨hcheck, rfl, rfl, fun _ hnone => nomatch hnone⟩
    | some reported =>
      by_cases hdiffers : objectiveDiffers tolerance reported (m.objective.evaluate cleaned) = true
      · simp only [if_pos hdiffers] at h
        cases h
      · simp only [if_neg hdiffers] at h
        cases h
        refine ⟨hcheck, rfl, rfl, fun _ hsome => ?_⟩
        cases hsome
        exact Bool.eq_false_iff.mpr hdiffers
  · rintro ⟨hcheck, hnames, hobjective, hnear⟩
    obtain ⟨names, cleaned, objective⟩ := a
    obtain rfl : names = m.vars.map (·.name) := hnames
    obtain rfl : objective = m.objective.evaluate cleaned := hobjective
    refine ⟨(cleaned, quality), hcheck, ?_⟩
    cases claimed with
    | none => rfl
    | some reported =>
      simp only [hnear reported rfl]
      rfl

/-! ## Faults -/

section Faults

omit [Number α] in
theorem failsOnly_inconsistent {β : Type} (detail : String) :
    FailsOnly Fault.IsInconsistent (inconsistent detail : Except (Fault α) β) :=
  failsOnly_error ⟨detail, rfl⟩

theorem failsOnly_checkValue (tolerance : α) (v : Variable α) (value : α) :
    FailsOnly Fault.IsInconsistent (checkValue tolerance v value) := by
  rw [checkValue]
  dsimp only
  split_ifs
  · exact failsOnly_inconsistent _
  · exact failsOnly_inconsistent _
  · exact failsOnly_inconsistent _
  · exact failsOnly_ok _
  · exact failsOnly_ok _

theorem failsOnly_checkConstraint (tolerance : α) (values : List α) (c : Constraint α) :
    FailsOnly Fault.IsInconsistent (checkConstraint tolerance values c) := by
  rw [checkConstraint]
  split_ifs
  · exact failsOnly_inconsistent _
  · exact failsOnly_ok _

theorem failsOnly_check (tolerance : α) (m : Model α) (values : List α) :
    FailsOnly Fault.IsInconsistent (check tolerance m values) := by
  have hrest : FailsOnly Fault.IsInconsistent (do
      let checked ← checkValues tolerance m.vars values
      let violations ← m.constraints.mapM (checkConstraint tolerance values)
      pure (checked.map (·.value), (⟨worst (checked.map (·.boundViolation)),
        worst (checked.map (·.integralityGap)), worst violations⟩ : Quality α))) := by
    refine (Attempt.failsOnly_mapM fun t _ => failsOnly_checkValue tolerance t.1 t.2).bind
      fun _ _ => ?_
    exact (Attempt.failsOnly_mapM fun c _ => failsOnly_checkConstraint tolerance values c).bind
      fun _ _ => failsOnly_ok _
  rw [check]
  split
  · exact (failsOnly_inconsistent _).bind fun _ _ => hrest
  · exact hrest

theorem failsOnly_accept (tolerance : α) (m : Model α) (backend : String) (claimed : Option α)
    (values : List α) :
    FailsOnly Fault.IsInconsistent (accept tolerance m backend claimed values) := by
  rw [accept]
  refine (failsOnly_check tolerance m values).bind fun _ _ => ?_
  cases claimed with
  | none => exact failsOnly_ok _
  | some reported =>
    dsimp only
    split
    · exact (failsOnly_inconsistent _).bind fun _ _ => failsOnly_ok _
    · exact failsOnly_ok _

/-- **All that the audit can object to is that an answer does not fit the model.** -/
theorem failsOnly_outcome (tolerance : α) (m : Model α) (backend : String) (answer : Answer α) :
    FailsOnly Fault.IsInconsistent (outcome tolerance m backend answer) := by
  rw [outcome]
  dsimp only
  split
  · exact failsOnly_ok _
  · exact failsOnly_ok _
  · exact failsOnly_inconsistent _
  · exact failsOnly_inconsistent _
  · exact failsOnly_ok _
  · exact (failsOnly_accept _ _ _ _ _).map _

end Faults

/-! ## Answers -/

theorem statusOf_injective : Function.Injective statusOf := by
  intro s t
  cases s <;> cases t <;> simp [statusOf]

section Answers

variable {tolerance : α} {m : Model α} {backend : String} {answer : Answer α} {o : Outcome α}

/-- How an answer can pass. -/
inductive Passes (tolerance : α) (m : Model α) (backend : String) (answer : Answer α) :
    Outcome α → Prop
  /-- The status says that there is no solution. -/
  | unsolved (status : answer.status = .infeasible ∨ answer.status = .unbounded) :
      Passes tolerance m backend answer (withoutAssignment m backend answer)
  /-- There are no values, and the status does not promise any. -/
  | valueless (status : answer.status ≠ .optimal ∧ answer.status ≠ .feasible)
      (values : answer.values = none) :
      Passes tolerance m backend answer (withoutAssignment m backend answer)
  /-- There are values, and they are accepted. -/
  | solved (status : answer.status ≠ .infeasible ∧ answer.status ≠ .unbounded)
      (values : List α) (there : answer.values = some values) (a : Assignment α)
      (quality : Quality α)
      (accepted : accept tolerance m backend answer.objective values = .ok (a, quality)) :
      Passes tolerance m backend answer
        { withoutAssignment m backend answer with assignment := some a, quality := quality }

theorem passes_of_outcome (h : outcome tolerance m backend answer = .ok o) :
    Passes tolerance m backend answer o := by
  obtain ⟨status, values, objective, iterations, nodes, message, tree⟩ := answer
  cases values with
  | none =>
    cases status with
    | infeasible =>
      cases h
      exact .unsolved (.inl rfl)
    | unbounded =>
      cases h
      exact .unsolved (.inr rfl)
    | optimal => cases h
    | feasible => cases h
    | timeLimit | nodeLimit | interrupted =>
      cases h
      exact .valueless (by simp) rfl
  | some values =>
    cases status with
    | infeasible =>
      cases h
      exact .unsolved (.inl rfl)
    | unbounded =>
      cases h
      exact .unsolved (.inr rfl)
    | optimal | feasible | timeLimit | nodeLimit | interrupted =>
      obtain ⟨⟨a, quality⟩, accepted, rfl⟩ := Attempt.map_eq_ok_iff.mp h
      exact .solved (by simp) values rfl a quality accepted

theorem outcome_of_passes (h : Passes tolerance m backend answer o) :
    outcome tolerance m backend answer = .ok o := by
  obtain ⟨status, values, objective, iterations, nodes, message, tree⟩ := answer
  cases h with
  | unsolved unsolved =>
    rcases unsolved with rfl | rfl <;> rfl
  | valueless promised there =>
    obtain rfl : values = none := there
    cases status with
    | optimal => exact absurd rfl promised.1
    | feasible => exact absurd rfl promised.2
    | _ => rfl
  | solved solvable found there a quality accepted =>
    obtain rfl : values = some found := there
    cases status with
    | infeasible => exact absurd rfl solvable.1
    | unbounded => exact absurd rfl solvable.2
    | _ => exact congrArg (Except.map _) accepted

/-- **An answer has an outcome exactly if it passes.** -/
theorem outcome_eq_ok_iff :
    outcome tolerance m backend answer = .ok o ↔ Passes tolerance m backend answer o :=
  ⟨passes_of_outcome, outcome_of_passes⟩

/-! ## What an outcome says -/

theorem Passes.status (h : Passes tolerance m backend answer o) :
    o.status = statusOf answer.status := by
  cases h <;> rfl

theorem Passes.budget (h : Passes tolerance m backend answer o) : o.budget = none := by
  cases h <;> rfl

/-- An outcome's assignment is what the check made of the answer's values. -/
theorem Passes.assignment (h : Passes tolerance m backend answer o) {a : Assignment α}
    (there : o.assignment = some a) :
    ∃ reported, answer.values = some reported
      ∧ check tolerance m reported = .ok (a.values, o.quality)
      ∧ a.names = m.vars.map (·.name)
      ∧ a.objective = m.objective.evaluate a.values := by
  cases h with
  | unsolved _ => cases there
  | valueless _ _ => cases there
  | solved _ reported values a' quality accepted =>
    obtain rfl : a' = a := Option.some.inj there
    obtain ⟨hcheck, hnames, hobjective, -⟩ := accept_eq_ok_iff.mp accepted
    exact ⟨reported, values, hcheck, hnames, hobjective⟩

/-- A status that promises a solution comes with an assignment. -/
theorem Passes.hasAssignment (h : Passes tolerance m backend answer o)
    (promised : o.status = .optimal ∨ o.status = .feasible) : o.hasAssignment = true := by
  have hstatus : answer.status = .optimal ∨ answer.status = .feasible :=
    promised.imp (fun hs => statusOf_injective (h.status.symm.trans hs))
      (fun hs => statusOf_injective (h.status.symm.trans hs))
  cases h with
  | unsolved unsolved => rcases unsolved with hs | hs <;> simp [hs] at hstatus
  | valueless unpromised _ => exact absurd hstatus (not_or.mpr unpromised)
  | solved _ _ _ _ _ _ => rfl

/-- A status that denies a solution comes without one. -/
theorem Passes.not_hasAssignment (h : Passes tolerance m backend answer o)
    (denied : o.status = .infeasible ∨ o.status = .unbounded) : o.hasAssignment = false := by
  have hstatus : answer.status = .infeasible ∨ answer.status = .unbounded :=
    denied.imp (fun hs => statusOf_injective (h.status.symm.trans hs))
      (fun hs => statusOf_injective (h.status.symm.trans hs))
  cases h with
  | unsolved _ => rfl
  | valueless _ _ => rfl
  | solved solvable _ _ _ _ _ => exact absurd hstatus (not_or.mpr solvable)

end Answers

end Audit

end Milp
