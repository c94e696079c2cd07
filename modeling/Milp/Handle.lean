/-
`Handle` -- references to the variables and constraints of a model.

Every model has an identity, and a reference remembers the identity of the model
that issued it beside a position. So a reference to the first variable of one
model is not a reference to the first variable of another.
-/
set_option autoImplicit false

namespace Milp

/-- The identity of a model. -/
structure ModelId where
  number : Nat
deriving DecidableEq, Repr

/-- The name of an identity where no other name is known. -/
def ModelId.text (id : ModelId) : String := toString id.number

/-- A reference to a declared variable. -/
structure Handle where
  model : ModelId
  index : Nat
deriving DecidableEq, Repr

/-- A reference in words, given how models are called. -/
def Handle.describe (nameOf : ModelId → String) (h : Handle) : String :=
  "#" ++ toString h.index ++ " of model " ++ nameOf h.model

/-- A reference to a constraint. -/
structure ConstraintHandle where
  model : ModelId
  index : Nat
deriving DecidableEq, Repr

end Milp
