/-
A model and the steps that built it.

`Model.build` folds steps over a model. This file reads its result off the list of steps,
without the fold: the variables are the declared ones in their order, each constraint is
the posed one at its position, and the objective is that of the last step that set one.
One step adds what it adds to the end of the lists (`Step` lemmas), so a whole run adds
what its steps add (`applyAll_history`).

The readings are stated over every carrier. That the calls succeeded is used once more:
whatever a step was given has passed its checks (`passed_of_applyAll`).
-/
import Milp.Proofs.Model.Building

set_option autoImplicit false

namespace Milp

variable {α : Type} [Number α]

/-! ## What a step says -/

/-- A constraint as it was posed. -/
structure Posed (α : Type) where
  name : Option String
  expression : Affine α
  relation : Relation
  rhs : α

/-- What a model stores of a constraint that is posed at a position. -/
def Posed.stored (q : Posed α) (position : Nat) : Constraint α where
  name := q.name.getD ("c" ++ toString position)
  terms := q.expression.normalizedTerms
  relation := q.relation
  rhs := q.rhs - q.expression.constant

/-- What a model stores of an objective. -/
def Objective.ofAffine (e : Affine α) (sense : Sense) : Objective α :=
  ⟨sense, e.normalizedTerms, e.constant⟩

namespace BuildStep

/-- The variable that a step declares; a binary one has its bounds cut down. -/
def newVariable? : BuildStep α → Option (Variable α)
  | .declare name kind bounds => some ⟨name, kind, kind.effectiveBounds bounds⟩
  | _ => none

omit [Number α] in
/-- The constraint that a step poses. -/
def newConstraint? : BuildStep α → Option (Posed α)
  | .constrain name e relation rhs => some ⟨name, e, relation, rhs⟩
  | _ => none

omit [Number α] in
/-- The objective that a step sets. -/
def newObjective? : BuildStep α → Option (Affine α × Sense)
  | .optimize e sense => some (e, sense)
  | _ => none

/-- What every successful step was given. -/
def Passed : BuildStep α → Prop
  | .declare _ kind bounds => (kind.effectiveBounds bounds).isValid = true
  | .constrain _ e _ rhs =>
    Number.isNaN rhs = false ∧ ∀ t ∈ e.terms, Number.isFinite t.2 = true
  | .optimize e _ =>
    Number.isFinite e.constant = true ∧ ∀ t ∈ e.terms, Number.isFinite t.2 = true

end BuildStep

namespace Model

/-- The variables that steps declare. -/
def declared (steps : List (BuildStep α)) : List (Variable α) :=
  steps.filterMap BuildStep.newVariable?

omit [Number α] in
/-- The constraints that steps pose. -/
def posed (steps : List (BuildStep α)) : List (Posed α) := steps.filterMap BuildStep.newConstraint?

/-- The objective of the last step that set one; without any, zero is to be small. -/
def lastObjective (steps : List (BuildStep α)) : Affine α × Sense :=
  (steps.filterMap BuildStep.newObjective?).getLast?.getD (.zero, .minimize)

theorem mem_declared {steps : List (BuildStep α)} {v : Variable α} (h : v ∈ declared steps) :
    ∃ name kind bounds, .declare name kind bounds ∈ steps
      ∧ v = ⟨name, kind, kind.effectiveBounds bounds⟩ := by
  obtain ⟨step, hstep, hnew⟩ := List.mem_filterMap.mp h
  cases step with
  | declare name kind bounds =>
    exact ⟨name, kind, bounds, hstep, (Option.some.inj hnew).symm⟩
  | constrain name e relation rhs => simp [BuildStep.newVariable?] at hnew
  | optimize e sense => simp [BuildStep.newVariable?] at hnew

omit [Number α] in
theorem mem_posed {steps : List (BuildStep α)} {q : Posed α} (h : q ∈ posed steps) :
    .constrain q.name q.expression q.relation q.rhs ∈ steps := by
  obtain ⟨step, hstep, hnew⟩ := List.mem_filterMap.mp h
  cases step with
  | declare name kind bounds => simp [BuildStep.newConstraint?] at hnew
  | constrain name e relation rhs =>
    obtain rfl := Option.some.inj hnew
    exact hstep
  | optimize e sense => simp [BuildStep.newConstraint?] at hnew

/-- The objective that counts was set by some step, or is zero. -/
theorem lastObjective_cases (steps : List (BuildStep α)) :
    lastObjective steps = (.zero, .minimize)
      ∨ .optimize (lastObjective steps).1 (lastObjective steps).2 ∈ steps := by
  rw [lastObjective]
  cases hlast : (steps.filterMap BuildStep.newObjective?).getLast? with
  | none => exact .inl rfl
  | some o =>
    obtain ⟨step, hstep, hnew⟩ := List.mem_filterMap.mp (List.mem_of_getLast? hlast)
    cases step with
    | declare name kind bounds => simp [BuildStep.newObjective?] at hnew
    | constrain name e relation rhs => simp [BuildStep.newObjective?] at hnew
    | optimize e sense =>
      obtain rfl := Option.some.inj hnew
      exact .inr hstep

/-! ## Steps -/

section Steps

variable {m grown : Model α} {step : BuildStep α}

theorem passed_of_apply (h : m.apply step = .ok grown) : step.Passed := by
  cases step with
  | declare name kind bounds => exact (of_declare h).2.1
  | constrain name e relation rhs =>
    obtain ⟨hnumber, hpassed, -⟩ := of_constrain h
    exact ⟨hnumber, fun t ht => (hpassed t ht).2⟩
  | optimize e sense =>
    obtain ⟨hpassed, hconstant, -⟩ := of_optimize h
    exact ⟨hconstant, fun t ht => (hpassed t ht).2⟩

/-- A step changes neither the identity nor the name. -/
theorem id_name_of_apply (h : m.apply step = .ok grown) :
    grown.id = m.id ∧ grown.name = m.name := by
  cases step with
  | declare name kind bounds =>
    obtain ⟨-, -, rfl⟩ := of_declare h
    exact ⟨rfl, rfl⟩
  | constrain name e relation rhs =>
    obtain ⟨-, -, rfl⟩ := of_constrain h
    exact ⟨rfl, rfl⟩
  | optimize e sense =>
    obtain ⟨-, -, rfl⟩ := of_optimize h
    exact ⟨rfl, rfl⟩

theorem vars_of_apply (h : m.apply step = .ok grown) :
    grown.vars = m.vars ++ step.newVariable?.toList := by
  cases step with
  | declare name kind bounds =>
    obtain ⟨-, -, rfl⟩ := of_declare h
    rfl
  | constrain name e relation rhs =>
    obtain ⟨-, -, rfl⟩ := of_constrain h
    exact (List.append_nil _).symm
  | optimize e sense =>
    obtain ⟨-, -, rfl⟩ := of_optimize h
    exact (List.append_nil _).symm

theorem constraints_of_apply (h : m.apply step = .ok grown) :
    grown.constraints
      = m.constraints ++ step.newConstraint?.toList.map fun q => q.stored m.constraints.length := by
  cases step with
  | declare name kind bounds =>
    obtain ⟨-, -, rfl⟩ := of_declare h
    exact (List.append_nil _).symm
  | constrain name e relation rhs =>
    obtain ⟨-, -, rfl⟩ := of_constrain h
    rfl
  | optimize e sense =>
    obtain ⟨-, -, rfl⟩ := of_optimize h
    exact (List.append_nil _).symm

theorem objective_of_apply (h : m.apply step = .ok grown) :
    grown.objective
      = (step.newObjective?.map fun o => Objective.ofAffine o.1 o.2).getD m.objective := by
  cases step with
  | declare name kind bounds =>
    obtain ⟨-, -, rfl⟩ := of_declare h
    rfl
  | constrain name e relation rhs =>
    obtain ⟨-, -, rfl⟩ := of_constrain h
    rfl
  | optimize e sense =>
    obtain ⟨-, -, rfl⟩ := of_optimize h
    rfl

end Steps

/-! ## Runs -/

section Runs

variable {m grown : Model α} {steps : List (BuildStep α)}

theorem applyAll_cons_eq_ok_iff {step : BuildStep α} :
    m.applyAll (step :: steps) = .ok grown
      ↔ ∃ next, m.apply step = .ok next ∧ next.applyAll steps = .ok grown := by
  rw [applyAll, List.foldlM_cons, Attempt.bind_eq_ok_iff]
  rfl

theorem passed_of_applyAll (h : m.applyAll steps = .ok grown) : ∀ s ∈ steps, s.Passed := by
  induction steps generalizing m with
  | nil => exact List.forall_mem_nil _
  | cons step steps ih =>
    obtain ⟨next, hnext, hsteps⟩ := applyAll_cons_eq_ok_iff.mp h
    exact List.forall_mem_cons.mpr ⟨passed_of_apply hnext, ih hsteps⟩

/-- **What a run adds** is what its steps add. -/
theorem applyAll_history (h : m.applyAll steps = .ok grown) :
    grown.vars = m.vars ++ declared steps
      ∧ grown.constraints
        = m.constraints ++ (posed steps).mapIdx (fun i q => q.stored (m.constraints.length + i))
      ∧ grown.objective = ((steps.filterMap BuildStep.newObjective?).getLast?.map fun o =>
          Objective.ofAffine o.1 o.2).getD m.objective := by
  induction steps generalizing m with
  | nil =>
    obtain rfl : m = grown := by injection h
    simp [declared, posed]
  | cons step steps ih =>
    obtain ⟨next, hnext, hsteps⟩ := applyAll_cons_eq_ok_iff.mp h
    obtain ⟨hvars, hconstraints, hobjective⟩ := ih hsteps
    rw [vars_of_apply hnext] at hvars
    rw [constraints_of_apply hnext] at hconstraints
    rw [objective_of_apply hnext] at hobjective
    refine ⟨?_, ?_, ?_⟩
    · rw [hvars, declared, declared, List.filterMap_cons]
      cases step.newVariable? <;> simp
    · rw [hconstraints, posed, posed, List.filterMap_cons]
      cases step.newConstraint? with
      | none => simp
      | some q => simp [Nat.add_assoc, Nat.add_comm 1]
    · rw [hobjective, List.filterMap_cons]
      cases step.newObjective? with
      | none => rfl
      | some o =>
        rw [List.getLast?_cons]
        cases (steps.filterMap BuildStep.newObjective?).getLast? <;> rfl

/-- **A model that was built** is what its steps say. -/
theorem build_history {id : ModelId} {name : String} {m : Model α}
    (h : build id name steps = .ok m) :
    m.vars = declared steps ∧ m.constraints = (posed steps).mapIdx (fun i q => q.stored i)
      ∧ m.objective = Objective.ofAffine (lastObjective steps).1 (lastObjective steps).2 := by
  obtain ⟨hvars, hconstraints, hobjective⟩ := applyAll_history h
  refine ⟨by simpa [empty] using hvars, by simpa [empty] using hconstraints, ?_⟩
  rw [hobjective, lastObjective]
  cases (steps.filterMap BuildStep.newObjective?).getLast? <;> rfl

/-- The bounds of every variable have been checked. -/
theorem isValid_of_build {id : ModelId} {name : String} {m : Model α}
    (h : build id name steps = .ok m) : ∀ v ∈ m.vars, v.bounds.isValid = true := by
  intro v hv
  rw [(build_history h).1] at hv
  obtain ⟨name, kind, bounds, hstep, rfl⟩ := mem_declared hv
  exact passed_of_applyAll h _ hstep

theorem passed_of_mem_posed {id : ModelId} {name : String} {m : Model α}
    (h : build id name steps = .ok m) {q : Posed α} (hq : q ∈ posed steps) :
    Number.isNaN q.rhs = false ∧ ∀ t ∈ q.expression.terms, Number.isFinite t.2 = true :=
  passed_of_applyAll h _ (mem_posed hq)

theorem passed_lastObjective {id : ModelId} {name : String} {m : Model α}
    (h : build id name steps = .ok m) :
    ∀ t ∈ (lastObjective steps).1.terms, Number.isFinite t.2 = true := by
  rcases lastObjective_cases steps with hzero | hset
  · intro t ht
    rw [hzero] at ht
    simp [Affine.zero, Affine.ofConstant] at ht
  · exact (passed_of_applyAll h _ hset).2

end Runs

end Model

end Milp
