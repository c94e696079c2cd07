/-
`Service` -- solving and judging models for clients.

A service answers three calls. `solve` builds the model of a request, solves it
and sends the outcome back. `validate` stops before the solving and judges the
model instead; a model that cannot be built, or that the solver cannot take, is a
finding about the request and no failure of the call. `listBackends` names the
solvers that are available.

Both calls on a request look at its options first, then at whether it has a model
at all. Every request has a model of its own, so the identity of that model
matters to nobody else.
-/
import Milp.Service.Request
import Milp.Service.Response
import Milp.Timeline

set_option autoImplicit false

namespace Milp

/-- A service with the options that it applies where a request has none. -/
structure Service (α : Type) where
  defaults : Options α
deriving Repr

namespace Service

variable {α : Type} [Number α]

def initial : Service α := ⟨.initial⟩

def requestModelId : ModelId := ⟨1⟩

def missingModel : Rejection := ⟨.invalidArgument, "Model is required"⟩

def rejecting {β : Type} : Except (Fault α) β → Except Rejection β :=
  Except.mapError rejectionOf

/-- The options of a request, merged. -/
def readOptions (s : Service α) (request : Request α) : Except Rejection (Options α) :=
  rejecting (mergeOptions request.options s.defaults)

omit [Number α] in
def readModel (request : Request α) : Except Rejection (ModelMessage α) :=
  match request.model with
  | some message => .ok message
  | none => .error missingModel

omit [Number α] in
/-- Whether a request wants the record of the search. -/
def wantsTree (request : Request α) : Bool :=
  match request.options with
  | some options => options.includeTree
  | none => false

/-- Build the model of a request, solve it and send the outcome back. -/
def solve (s : Service α) (request : Request α) : Except Rejection (SolveResponse α) := do
  let options ← s.readOptions request
  let message ← readModel request
  let m ← rejecting (message.toModel requestModelId)
  let o ← rejecting (Supervisor.solveModel m options)
  pure (.ofOutcome o (wantsTree request))

def judge (b : Backend α) (m : Model α) : ValidationResponse :=
  let (errors, warnings) := match b.validate m with
    | .ok warnings => ([], warnings)
    | .error fault => ([fault.message], [])
  let sizes := m.dimensions
  ⟨errors.isEmpty, errors, warnings, sizes.vars, sizes.constraints, sizes.integers, b.name⟩

def validate (s : Service α) (request : Request α) : Except Rejection ValidationResponse := do
  let options ← s.readOptions request
  let message ← readModel request
  match message.toModel requestModelId with
  | .error fault => pure (.unreadable fault.message)
  | .ok m =>
    let b ← rejecting (Backend.ofChoice options.backend)
    pure (judge b m)

/-- The name of the solver that requests without a choice get; empty if there is
no such solver. -/
def defaultBackendName (s : Service α) : String :=
  match (Backend.ofChoice s.defaults.backend : Except (Fault α) (Backend α)) with
  | .ok b => b.name
  | .error _ => ""

/-- A solver as a message, if it is available. -/
def backendMessage? (s : Service α) (choice : BackendChoice) : Option BackendMessage :=
  match (Backend.ofChoice choice : Except (Fault α) (Backend α)) with
  | .ok b =>
    some ⟨choice.shortName, b.name, b.supportsIntegers,
      b.capabilities.relations.map Relation.symbol, b.name == s.defaultBackendName⟩
  | .error _ => none

def listBackends (s : Service α) : List BackendMessage :=
  BackendChoice.available.filterMap s.backendMessage?

end Service

end Milp
