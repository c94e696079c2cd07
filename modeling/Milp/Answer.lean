/-
`Answer` -- what a solver hands back, before anyone has checked it.

An answer is a status with, possibly, an assignment by column, the objective the
solver claims for it, counts of its work, and the record of its search. Nothing
in it is to be trusted; `Milp.Audit` turns it into an outcome.
-/
import Milp.SearchTree

set_option autoImplicit false

namespace Milp

/-- How a solver says its work ended. -/
inductive Answer.Status where
  | optimal
  | feasible
  | infeasible
  | unbounded
  | timeLimit
  | nodeLimit
  | interrupted
deriving DecidableEq, Repr

def Answer.Status.label : Answer.Status → String
  | .optimal => "Optimal"
  | .feasible => "Feasible"
  | .infeasible => "Infeasible"
  | .unbounded => "Unbounded"
  | .timeLimit => "TimeLimit"
  | .nodeLimit => "NodeLimit"
  | .interrupted => "Interrupted"

/-- The unchecked answer of a solver. -/
structure Answer (α : Type) where
  status : Answer.Status
  values : Option (List α)
  objective : Option α
  iterations : Nat
  nodes : Nat
  message : String
  tree : Option (SearchTree α)

/-- An answer that says nothing but how the work ended. -/
def Answer.ofStatus {α : Type} (status : Answer.Status) : Answer α :=
  ⟨status, none, none, 0, 0, "", none⟩

end Milp
