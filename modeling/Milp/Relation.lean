/-
`Relation` -- how the two sides of a constraint compare.

A relation measures by how much two numbers miss it. The measure is zero where
the relation holds; for "differs from", which no linear solver can express, it
is one where the sides are equal.
-/
import Milp.Number

set_option autoImplicit false

namespace Milp

/-- The relation between the two sides of a constraint. -/
inductive Relation where
  | atMost
  | equal
  | atLeast
  | differs
deriving DecidableEq, Repr

namespace Relation

/-- The sign that is written between the two sides. -/
def symbol : Relation → String
  | .atMost => "<="
  | .equal => "="
  | .atLeast => ">="
  | .differs => "!="

/-- By how much two sides miss the relation. -/
def violation {α : Type} [Number α] (r : Relation) (left right : α) : α :=
  match r with
  | .atMost => Number.max (left - right) 0
  | .equal => Number.abs (left - right)
  | .atLeast => Number.max (right - left) 0
  | .differs => if left == right then 1 else 0

/-- The relations that a linear program can express. -/
def linear : List Relation := [.atMost, .equal, .atLeast]

end Relation

end Milp
