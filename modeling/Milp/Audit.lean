/-
`Audit` -- from an answer to an outcome.

Nobody believes a solver. An assignment is checked against the model it claims
to solve: it must have one finite value a variable, each within a tolerance of
its bounds and, where only whole numbers are allowed, of a whole number; and it
must satisfy every constraint. Only then are the values cleaned: whole numbers
are rounded to, other values moved into their bounds.

Constraints are checked at the values as reported. What a constraint may be
missed by grows with the size of its sides: it is the tolerance times the largest
of one, the magnitude of the right-hand side and the sum of the magnitudes on
the left.

The first demand that is not met is reported, in the order above: variable by
variable, then constraint by constraint.
-/
import Milp.Answer
import Milp.Outcome

set_option autoImplicit false

namespace Milp.Audit

variable {α : Type} [Number α]

/-- The tolerance where none is given. -/
def defaultTolerance : α := 1e-6

def inconsistent {β : Type} (detail : String) : Except (Fault α) β :=
  .error (.inconsistentResult detail)

/-! ## Variables -/

/-- A value that has passed, cleaned, with what it was missing before. -/
structure CheckedValue (α : Type) where
  value : α
  boundViolation : α
  integralityGap : α
deriving Repr

def checkValue (tolerance : α) (v : Variable α) (value : α) :
    Except (Fault α) (CheckedValue α) :=
  let outside := v.bounds.violation value
  if !Number.isFinite value then
    inconsistent ("variable '" ++ v.name ++ "' has non-finite value " ++ Number.text value)
  else if Number.gt outside tolerance then
    inconsistent ("variable '" ++ v.name ++ "' = " ++ Number.text value ++ " lies outside "
      ++ v.bounds.text)
  else if v.isIntegral then
    let gap := Number.integralityGap value
    if Number.gt gap tolerance then
      inconsistent (v.kind.label ++ " variable '" ++ v.name ++ "' has fractional value "
        ++ Number.text value)
    else .ok ⟨Number.round value, outside, gap⟩
  else .ok ⟨v.bounds.clamp value, outside, 0⟩

/-- Check and clean the values of all variables, in order. -/
def checkValues (tolerance : α) (vars : List (Variable α)) (values : List α) :
    Except (Fault α) (List (CheckedValue α)) :=
  (vars.zip values).mapM fun (v, value) => checkValue tolerance v value

/-! ## Constraints -/

/-- What a constraint may be missed by at an assignment. -/
def allowance (tolerance : α) (c : Constraint α) (values : List α) : α :=
  tolerance * Number.max (Number.max (c.activity values) (Number.abs c.rhs)) 1

/-- Check one constraint; the result is what it is missed by. -/
def checkConstraint (tolerance : α) (values : List α) (c : Constraint α) :
    Except (Fault α) α :=
  let lhs := c.lhs values
  let violation := c.relation.violation lhs c.rhs
  if Number.gt violation (allowance tolerance c values) then
    inconsistent ("constraint '" ++ c.name ++ "' violated: " ++ Number.text lhs ++ " "
      ++ c.relation.symbol ++ " " ++ Number.text c.rhs)
  else .ok violation

/-! ## Assignments -/

/-- The greatest of some violations, none of which counts as less than zero. -/
def worst (violations : List α) : α := violations.foldl Number.max 0

/-- Check an assignment; the result is the cleaned assignment and the largest
violations found. -/
def check (tolerance : α) (m : Model α) (values : List α) :
    Except (Fault α) (List α × Quality α) := do
  if values.length ≠ m.vars.length then
    inconsistent ("assignment has " ++ toString values.length ++ " values for "
      ++ toString m.vars.length ++ " variables")
  let checked ← checkValues tolerance m.vars values
  -- at the values as reported: cleaning must not make a constraint hold or fail
  let violations ← m.constraints.mapM (checkConstraint tolerance values)
  pure (checked.map (·.value),
    ⟨worst (checked.map (·.boundViolation)), worst (checked.map (·.integralityGap)),
      worst violations⟩)

/-- Whether a claimed objective is too far from the one that the assignment
has. -/
def objectiveDiffers (tolerance claimed objective : α) : Bool :=
  Number.gt (Number.abs (claimed - objective))
    (tolerance * 10 * Number.max (Number.abs objective) 1)

/-! ## Answers -/

def statusOf : Answer.Status → Outcome.Status
  | .optimal => .optimal
  | .feasible => .feasible
  | .infeasible => .infeasible
  | .unbounded => .unbounded
  | .timeLimit => .timedOut
  | .nodeLimit => .nodeLimit
  | .interrupted => .interrupted

/-- An answer's outcome before any assignment has been looked at. -/
def withoutAssignment (m : Model α) (backend : String) (answer : Answer α) : Outcome α :=
  { Outcome.bare (statusOf answer.status) m backend with
    message := answer.message
    statistics := ⟨answer.iterations, answer.nodes, .zero, m.dimensions⟩
    tree := answer.tree }

/-- Accept an assignment: check it, and check the objective that is claimed for
it. -/
def accept (tolerance : α) (m : Model α) (backend : String) (claimed : Option α)
    (values : List α) : Except (Fault α) (Assignment α × Quality α) := do
  let (cleaned, quality) ← check tolerance m values
  -- the objective is that of the cleaned values, and the claim is held against it
  let objective := m.objective.evaluate cleaned
  match claimed with
  | some reported =>
    if objectiveDiffers tolerance reported objective then
      inconsistent (backend ++ " reported objective " ++ Number.text reported
        ++ " but the assignment evaluates to " ++ Number.text objective)
  | none => pure ()
  pure (⟨m.vars.map (·.name), cleaned, objective⟩, quality)

/-- The outcome of an answer. An assignment is dropped where the status says
that there is none, and demanded where the status promises one. -/
def outcome (tolerance : α) (m : Model α) (backend : String) (answer : Answer α) :
    Except (Fault α) (Outcome α) :=
  let base := withoutAssignment m backend answer
  match base.status, answer.values with
  | .infeasible, _ | .unbounded, _ => .ok base
  | .optimal, none | .feasible, none =>
    inconsistent (backend ++ " reported " ++ base.status.label ++ " without an assignment")
  | _, none => .ok base
  | _, some values =>
    (accept tolerance m backend answer.objective values).map fun (assignment, quality) =>
      { base with assignment := some assignment, quality := quality }

end Milp.Audit
