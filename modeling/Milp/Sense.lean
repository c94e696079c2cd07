/-
`Sense` -- the direction of an optimization, and what counts as better.
-/
import Milp.Number

set_option autoImplicit false

namespace Milp

/-- Whether an objective is to be small or large. -/
inductive Sense where
  | minimize
  | maximize
deriving DecidableEq, Repr

namespace Sense

def label : Sense → String
  | .minimize => "min"
  | .maximize => "max"

/-- Whether a candidate beats the incumbent by more than a margin. -/
def improves {α : Type} [Number α] (sense : Sense) (candidate incumbent margin : α) : Bool :=
  match sense with
  | .minimize => Number.lt candidate (incumbent - margin)
  | .maximize => Number.gt candidate (incumbent + margin)

end Sense

end Milp
