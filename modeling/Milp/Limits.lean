/-
`Limits` -- how long and how precisely a solver may work.
-/
import Milp.Duration

set_option autoImplicit false

namespace Milp

/-- What a solver is held to in one solve. -/
structure Limits (α : Type) where
  timeLimit : Duration
  nodeLimit : Option Nat
  tolerance : α
  verbose : Bool
deriving Repr

end Milp
