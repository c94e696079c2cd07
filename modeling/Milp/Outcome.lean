/-
`Outcome` -- the checked result of one solve.

An outcome carries an assignment only if that has passed the audit. It also says
which model was solved by whom, how the work ended, how large the model was, how
far the assignment strays from the model's demands, and, for a solve cut short,
the budget it was given.
-/
import Milp.Model.Rendering
import Milp.SearchTree

set_option autoImplicit false

namespace Milp

/-- How a solve ended, as the caller sees it. -/
inductive Outcome.Status where
  | optimal
  | feasible
  | infeasible
  | unbounded
  /-- The time ran out; there may be an assignment. -/
  | timedOut
  /-- The caller cancelled; there may be an assignment. -/
  | interrupted
  /-- The node limit was reached; there may be an assignment. -/
  | nodeLimit
deriving DecidableEq, Repr

namespace Outcome.Status

def label : Outcome.Status → String
  | .optimal => "Optimal"
  | .feasible => "Feasible"
  | .infeasible => "Infeasible"
  | .unbounded => "Unbounded"
  | .timedOut => "Timed Out"
  | .interrupted => "Interrupted"
  | .nodeLimit => "Node Limit Reached"

def isFeasible : Outcome.Status → Bool
  | .optimal | .feasible => true
  | _ => false

/-- Whether the solve ran to its natural end. -/
def isConclusive : Outcome.Status → Bool
  | .optimal | .feasible | .infeasible | .unbounded => true
  | _ => false

end Outcome.Status

/-- Counts of the work done and the sizes of the model. -/
structure Statistics where
  iterations : Nat
  nodes : Nat
  solveTime : Duration
  dimensions : Model.Dimensions
deriving DecidableEq, Repr

/-- The largest violations found in an accepted assignment. -/
structure Quality (α : Type) where
  bound : α
  integrality : α
  constraint : α
deriving Repr

def Quality.perfect {α : Type} [Number α] : Quality α := ⟨0, 0, 0⟩

/-- An accepted assignment: a value by column, under the names of the variables,
and the objective there. -/
structure Assignment (α : Type) where
  names : List String
  values : List α
  objective : α
deriving Repr

/-- The checked result of a solve. -/
structure Outcome (α : Type) where
  status : Outcome.Status
  model : ModelId
  backend : String
  assignment : Option (Assignment α)
  message : String
  statistics : Statistics
  quality : Quality α
  budget : Option Duration
  tree : Option (SearchTree α)

namespace Outcome

variable {α : Type}

/-- An outcome without assignment, message or search tree. -/
def bare [Number α] (status : Outcome.Status) (m : Model α) (backend : String) : Outcome α where
  status := status
  model := m.id
  backend := backend
  assignment := none
  message := ""
  statistics := ⟨0, 0, .zero, m.dimensions⟩
  quality := .perfect
  budget := none
  tree := none

def objective? (o : Outcome α) : Option α := o.assignment.map (·.objective)

def values? (o : Outcome α) : Option (List α) := o.assignment.map (·.values)

def hasAssignment (o : Outcome α) : Bool := o.assignment.isSome

/-- The value of a variable; none for a variable of another model, or without an
assignment. -/
def value? (o : Outcome α) (h : Handle) : Option α := do
  let a ← o.assignment
  if h.model == o.model then a.values[h.index]? else none

def valueByName? (o : Outcome α) (name : String) : Option α := do
  let a ← o.assignment
  let index ← a.names.findIdx? (· == name)
  a.values[index]?

/-- Names and values, in the order of declaration. -/
def pairs (o : Outcome α) : List (String × α) :=
  match o.assignment with
  | some a => a.names.zip a.values
  | none => []

def isOptimal (o : Outcome α) : Bool := o.status == .optimal

def isFeasible (o : Outcome α) : Bool := o.status.isFeasible

/-- For callers who want running out of time to be a failure: the fault names
the budget, or none at all if the outcome does not know it. -/
def ensureCompleted (o : Outcome α) : Except (Fault α) (Outcome α) :=
  if o.status == .timedOut then .error (.timedOut (o.budget.getD .zero)) else .ok o

def text [Number α] (o : Outcome α) : String :=
  joinLines <|
    ["Status    : " ++ o.status.label,
     "Backend   : " ++ o.backend,
     "Objective : " ++ (match o.objective? with
        | some objective => Number.text objective
        | none => "n/a")]
    ++ (if o.message.isEmpty then [] else ["Message   : " ++ o.message])
    ++ ["Stats     : " ++ toString o.statistics.nodes ++ " nodes, "
          ++ toString o.statistics.iterations ++ " iterations, "
          ++ o.statistics.solveTime.millisecondsText ++ " ms"]
    ++ (if o.hasAssignment then
          "Variables" :: o.pairs.map fun (name, value) => "  " ++ name ++ " = " ++ Number.text value
        else [])

end Outcome

end Milp
