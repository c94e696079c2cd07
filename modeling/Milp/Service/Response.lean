/-
`Response` -- what the service sends back.

An outcome is flattened in the same way as a request: its status is a number,
its assignment a list of names and values, and the record of the search, if it is
asked for, a list of nodes with the last cut of each in words.

A request that fails is rejected. What a client is told is the class of the
failure, for programs, and its code and wording, for people.
-/
import Milp.Outcome

set_option autoImplicit false

namespace Milp.Service

/-! ## Rejections -/

/-- The classes of failure that clients tell apart. -/
inductive RejectionClass where
  | invalidArgument
  | unimplemented
  | deadlineExceeded
  | dataLoss
  | internal
deriving DecidableEq, Repr

def RejectionClass.label : RejectionClass → String
  | .invalidArgument => "InvalidArgument"
  | .unimplemented => "Unimplemented"
  | .deadlineExceeded => "DeadlineExceeded"
  | .dataLoss => "DataLoss"
  | .internal => "Internal"

/-- What a client is told about a failure. -/
structure Rejection where
  kind : RejectionClass
  message : String
deriving DecidableEq, Repr

def classOf {α : Type} : Fault α → RejectionClass
  | .duplicateVariable _ | .unboundVariable _ | .invalidBounds .. | .invalidCoefficient ..
  | .mps .. | .configuration _ => .invalidArgument
  | .unsupportedConstruct .. | .solverNotAvailable _ => .unimplemented
  | .timedOut _ => .deadlineExceeded
  | .inconsistentResult _ => .dataLoss
  | .solverFailed .. | .io _ => .internal

variable {α : Type} [Number α]

/-- A fault as a client is told about it, given how models are called. -/
def describeFault (nameOf : ModelId → String) (fault : Fault α) : Rejection :=
  ⟨classOf fault, "[" ++ fault.code ++ "] " ++ fault.describe nameOf⟩

def rejectionOf (fault : Fault α) : Rejection := describeFault ModelId.text fault

/-! ## Results -/

/-- One node of a search in a message. -/
structure NodeMessage (α : Type) where
  id : Nat
  parent : Option Nat
  depth : Nat
  /-- The last cut in words; empty at the root. -/
  cut : String
  relaxation : Option α
  outcome : String
deriving Repr

/-- The result of a solve in a message. -/
structure SolveResponse (α : Type) where
  status : Nat
  objective : Option α
  values : List (String × α)
  message : String
  statistics : Statistics
  backend : String
  quality : Quality α
  searchTree : List (NodeMessage α)
deriving Repr

omit [Number α] in
def statusNumber : Outcome.Status → Nat
  | .optimal => 0
  | .feasible => 1
  | .infeasible => 2
  | .unbounded => 3
  | .timedOut => 4
  | .interrupted => 5
  | .nodeLimit => 6

def NodeMessage.ofNode (node : Node α) : NodeMessage α where
  id := node.id
  parent := node.parent
  depth := node.depth
  cut := (node.lastCut?.map Cut.text).getD ""
  relaxation := node.relaxation
  outcome := node.outcome.label

/-- The nodes to send back: those of the record, if there is one and it is asked
for. -/
def nodeMessages (tree : Option (SearchTree α)) (includeTree : Bool) : List (NodeMessage α) :=
  match includeTree, tree with
  | true, some tree => tree.nodes.toList.map NodeMessage.ofNode
  | _, _ => []

def SolveResponse.ofOutcome (o : Outcome α) (includeTree : Bool) : SolveResponse α where
  status := statusNumber o.status
  objective := o.objective?
  values := o.pairs
  message := o.message
  statistics := o.statistics
  backend := o.backend
  quality := o.quality
  searchTree := nodeMessages o.tree includeTree

/-- The judgement on a model in a message. -/
structure ValidationResponse where
  isValid : Bool
  errors : List String
  warnings : List String
  vars : Nat
  constraints : Nat
  integers : Nat
  backend : String
deriving DecidableEq, Repr

/-- The judgement on a request whose model cannot even be built. -/
def ValidationResponse.unreadable (error : String) : ValidationResponse :=
  ⟨false, [error], [], 0, 0, 0, ""⟩

/-- A solver in a message. -/
structure BackendMessage where
  id : String
  name : String
  supportsIntegers : Bool
  relations : List String
  isDefault : Bool
deriving DecidableEq, Repr

end Milp.Service
