/-
`Options` -- what a caller asks of one solve.
-/
import Milp.BackendChoice
import Milp.Limits
import Milp.Audit

set_option autoImplicit false

namespace Milp

/-- What a caller asks of one solve. -/
structure Options (α : Type) where
  backend : BackendChoice
  /-- How long the solve may take; unlimited if there is none. -/
  timeLimit : Option Duration
  tolerance : α
  /-- How long a solve that has been told to stop may take to hand over what it
  has. -/
  grace : Duration
  nodeLimit : Option Nat
  verbose : Bool
deriving Repr

namespace Options

variable {α : Type}

/-- The grace where none is asked for. -/
def defaultGrace : Duration := .ofMilliseconds 100

def initial [Number α] : Options α where
  backend := .auto
  timeLimit := none
  tolerance := Audit.defaultTolerance
  grace := defaultGrace
  nodeLimit := none
  verbose := false

def budget (o : Options α) : Duration := o.timeLimit.getD .longest

def limits (o : Options α) (budget : Duration) : Limits α :=
  ⟨budget, o.nodeLimit, o.tolerance, o.verbose⟩

/-- The time limit that a number of seconds sets; `source` says where the number
comes from. -/
def timeLimitOfSeconds [Number α] (seconds : α) (source : String) :
    Except (Fault α) Duration :=
  match Duration.ofSeconds seconds with
  | .ok limit => .ok limit
  | .error why =>
    .error (.configuration (source ++ " must be a non-negative number of seconds, got "
      ++ Number.text seconds ++ ": " ++ why.message))

end Options

end Milp
