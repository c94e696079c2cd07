/-
`Fault` -- everything that can go wrong between a model and its solution.

A fault is a cause with the values that explain it. Its code, its wording and
whether another attempt may succeed are functions of the cause. The wording of a
reference to a variable depends on how models are called, so it takes that as an
argument; `Fault.message` uses the number of the identity.
-/
import Milp.Number
import Milp.Handle
import Milp.Duration

set_option autoImplicit false

namespace Milp

/-- What a model does not know: a reference, or something described in words. -/
inductive Unknown where
  | handle (h : Handle)
  | described (text : String)
deriving DecidableEq, Repr

/-- The causes of failure. -/
inductive Fault (α : Type) where
  | duplicateVariable (name : String)
  | unboundVariable (what : Unknown)
  | invalidBounds (name : String) (lower upper : α)
  | invalidCoefficient (context : String) (value : α)
  | unsupportedConstruct (backend construct : String)
  | solverNotAvailable (detail : String)
  | timedOut (budget : Duration)
  | solverFailed (backend detail : String)
  | inconsistentResult (detail : String)
  | mps (line : Nat) (detail : String)
  | configuration (detail : String)
  | io (detail : String)
deriving Repr

namespace Fault

variable {α : Type} [Number α]

omit [Number α] in
def code : Fault α → String
  | .duplicateVariable _ => "VARIABLE_DUPLICATE"
  | .unboundVariable _ => "VARIABLE_UNBOUND"
  | .invalidBounds .. => "VARIABLE_INVALID_BOUNDS"
  | .invalidCoefficient .. => "COEFFICIENT_INVALID"
  | .unsupportedConstruct .. => "CONSTRUCT_UNSUPPORTED"
  | .solverNotAvailable _ => "SOLVER_NOT_AVAILABLE"
  | .timedOut _ => "SOLVER_TIMED_OUT"
  | .solverFailed .. => "SOLVER_FAILED"
  | .inconsistentResult _ => "RESULT_INCONSISTENT"
  | .mps .. => "MPS_INVALID"
  | .configuration _ => "CONFIG_INVALID"
  | .io _ => "IO"

/-- The wording of a cause, given how models are called. -/
def describe (nameOf : ModelId → String) : Fault α → String
  | .duplicateVariable name => "variable '" ++ name ++ "' is already declared in this model"
  | .unboundVariable what =>
    let shown := match what with
      | .handle h => h.describe nameOf
      | .described text => text
    "variable " ++ shown ++ " is not registered in this model"
  | .invalidBounds name lower upper =>
    "variable '" ++ name ++ "' has invalid bounds [" ++ Number.text lower ++ ", "
      ++ Number.text upper ++ "]"
  | .invalidCoefficient context value =>
    "invalid coefficient " ++ Number.text value ++ " in " ++ context
  | .unsupportedConstruct backend construct => backend ++ " cannot express " ++ construct
  | .solverNotAvailable detail => "Solver not available: " ++ detail
  | .timedOut budget => "solve timed out after " ++ budget.text
  | .solverFailed backend detail => backend ++ " failed: " ++ detail
  | .inconsistentResult detail => "inconsistent solver result: " ++ detail
  | .mps line detail => "MPS line " ++ toString line ++ ": " ++ detail
  | .configuration detail => "configuration error: " ++ detail
  | .io detail => detail

def message (fault : Fault α) : String := fault.describe ModelId.text

omit [Number α] in
/-- Whether another attempt, with more time, may succeed. -/
def isRetryable : Fault α → Bool
  | .timedOut _ => true
  | _ => false

end Fault

end Milp
