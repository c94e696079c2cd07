/-
`BackendChoice` -- the solvers a caller may ask for by name.

Names are read without regard to case and to blanks around them; no name at all
means the automatic choice. Not every solver that can be asked for is available.
-/
import Milp.Fault
import Milp.Text.Blank
import Milp.Text.LowerCase

set_option autoImplicit false

namespace Milp

/-- A solver asked for. -/
inductive BackendChoice where
  /-- The best that is available. -/
  | auto
  | branchAndBound
  | coinCbc
  | highs
deriving DecidableEq, Repr

namespace BackendChoice

def label : BackendChoice → String
  | .auto => "Auto"
  | .branchAndBound => "Branch and Bound"
  | .coinCbc => "COIN-OR CBC"
  | .highs => "HiGHS"

/-- The short name of a choice, which reads back as the choice. -/
def shortName : BackendChoice → String
  | .auto => "auto"
  | .branchAndBound => "bnb"
  | .coinCbc => "cbc"
  | .highs => "highs"

/-- The names of each choice, in lower case. -/
def ofName? (name : String) : Option BackendChoice :=
  if name == "auto" || name == "" then some .auto
  else if name == "bnb" || name == "branch-and-bound" || name == "branch_and_bound" then
    some .branchAndBound
  else if name == "cbc" || name == "coin_cbc" || name == "coin-cbc" then some .coinCbc
  else if name == "highs" then some .highs
  else none

def ofText {α : Type} (text : String) : Except (Fault α) BackendChoice :=
  let name := Text.toLower (Text.trim text)
  match ofName? name with
  | some choice => .ok choice
  | none => .error (.configuration ("unknown solver backend '" ++ name ++ "'"))

/-- The solvers that are available, the preferred one first. -/
def available : List BackendChoice := [.branchAndBound]

end BackendChoice

end Milp
