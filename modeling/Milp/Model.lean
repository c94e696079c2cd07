/-
`Model` -- optimization problems, independent of any solver.

A model holds variables, linear constraints over them and an objective. It grows
by three operations, each of which either succeeds or changes nothing:

* `declare` adds a variable. Its name must be new, and its bounds must contain a
  finite number; a binary variable's bounds are first cut down to `[0, 1]`.
* `addConstraint` adds a constraint. Every variable of the expression must be
  one of this model and every coefficient finite. The expression's constant
  moves to the right-hand side.
* `setObjective` replaces the objective, under the same conditions and with a
  finite constant.

What is stored of an expression is its normalized terms, so a constraint names a
variable at most once and never with a zero coefficient.
-/
import Milp.Affine
import Milp.Interval
import Milp.Relation
import Milp.Sense
import Milp.Fault

set_option autoImplicit false

namespace Milp

/-! ## Variables -/

/-- The values that a variable may take. -/
inductive VariableKind where
  | continuous
  | integer
  | binary
deriving DecidableEq, Repr

namespace VariableKind

def isIntegral : VariableKind → Bool
  | .continuous => false
  | .integer | .binary => true

def label : VariableKind → String
  | .continuous => "continuous"
  | .integer => "integer"
  | .binary => "binary"

/-- The bounds that a variable of this kind gets from those it is given. -/
def effectiveBounds {α : Type} [Number α] (kind : VariableKind) (bounds : Interval α) :
    Interval α :=
  match kind with
  | .binary => bounds.intersect Interval.unit
  | .continuous | .integer => bounds

end VariableKind

/-- A declared variable. -/
structure Variable (α : Type) where
  name : String
  kind : VariableKind
  bounds : Interval α
deriving Repr

def Variable.isIntegral {α : Type} (v : Variable α) : Bool := v.kind.isIntegral

/-! ## Constraints and objectives -/

/-- The values that an assignment, listed by column, gives to handles. -/
def columnValue {α : Type} [Number α] (values : List α) (h : Handle) : α :=
  Number.valueAt values h.index

/-- A linear constraint `Σ aᵢ · xᵢ ⋈ rhs`. -/
structure Constraint (α : Type) where
  name : String
  terms : List (Handle × α)
  relation : Relation
  rhs : α
deriving Repr

namespace Constraint

variable {α : Type} [Number α]

def lhs (c : Constraint α) (values : List α) : α :=
  Number.weightedSum c.terms (columnValue values)

/-- The sum of the magnitudes that the left-hand side is made of. -/
def activity (c : Constraint α) (values : List α) : α :=
  Number.sum (c.terms.map fun (h, a) => Number.abs (a * columnValue values h))

end Constraint

/-- What is to be made small or large. -/
structure Objective (α : Type) where
  sense : Sense
  terms : List (Handle × α)
  constant : α
deriving Repr

namespace Objective

variable {α : Type} [Number α]

/-- The objective of a model that was given none: minimize zero. -/
def initial : Objective α := ⟨.minimize, [], 0⟩

def evaluate (o : Objective α) (values : List α) : α :=
  Number.weightedSum o.terms (columnValue values) + o.constant

/-- The coefficient of a column; zero if it has none. -/
def coefficient (o : Objective α) (column : Nat) : α :=
  Number.sum ((o.terms.filter fun (h, _) => h.index == column).map Prod.snd)

end Objective

/-! ## Models -/

/-- An optimization problem. -/
structure Model (α : Type) where
  id : ModelId
  name : String
  vars : List (Variable α)
  /-- Where the variable of a name is; by it names are looked up. -/
  positions : List (String × Nat) := vars.mapIdx fun index v => (v.name, index)
  constraints : List (Constraint α)
  objective : Objective α
deriving Repr

namespace Model

variable {α : Type} [Number α]

def empty (id : ModelId) (name : String) : Model α where
  id := id
  name := name
  vars := []
  positions := []
  constraints := []
  objective := .initial

/-! ### References -/

omit [Number α] in
/-- Whether a reference is to a variable of this model. -/
def owns (m : Model α) (h : Handle) : Bool := h.model == m.id && h.index < m.vars.length

omit [Number α] in
def handleOf? (m : Model α) (name : String) : Option Handle :=
  (m.positions.lookup name).map fun index => ⟨m.id, index⟩

omit [Number α] in
/-- The references to all variables, in the order of declaration. -/
def handles (m : Model α) : List Handle :=
  (List.range m.vars.length).map fun index => ⟨m.id, index⟩

omit [Number α] in
def variableOf (m : Model α) (h : Handle) : Except (Fault α) (Variable α) :=
  if h.model == m.id then
    match m.vars[h.index]? with
    | some v => .ok v
    | none => .error (.unboundVariable (.handle h))
  else .error (.unboundVariable (.handle h))

/-! ### Growing a model -/

def declare (m : Model α) (name : String) (kind : VariableKind) (bounds : Interval α) :
    Except (Fault α) (Handle × Model α) :=
  if (m.handleOf? name).isSome then .error (.duplicateVariable name)
  else
    let effective := kind.effectiveBounds bounds
    if effective.isValid then
      .ok (⟨m.id, m.vars.length⟩,
        { m with
          vars := m.vars ++ [⟨name, kind, effective⟩]
          positions := m.positions ++ [(name, m.vars.length)] })
    else .error (.invalidBounds name effective.lower effective.upper)

/-- Check one term: its variable must be one of the model, its coefficient
finite. -/
def checkTerm (m : Model α) (context : String) (h : Handle) (coefficient : α) :
    Except (Fault α) Unit := do
  let v ← m.variableOf h
  if Number.isFinite coefficient then pure ()
  else .error (.invalidCoefficient (context ++ " (variable '" ++ v.name ++ "')") coefficient)

/-- Check the terms of an expression in order and normalize them. -/
def checkedTerms (m : Model α) (context : String) (e : Affine α) :
    Except (Fault α) (List (Handle × α)) := do
  e.terms.forM fun (h, c) => m.checkTerm context h c
  pure e.normalizedTerms

omit [Number α] in
/-- The name of the next constraint if it is given none: `c` and its position. -/
def nextConstraintName (m : Model α) : String := "c" ++ toString m.constraints.length

def addNamedConstraint (m : Model α) (name : String) (e : Affine α) (relation : Relation)
    (rhs : α) : Except (Fault α) (ConstraintHandle × Model α) := do
  if Number.isNaN rhs then
    throw (.invalidCoefficient ("right-hand side of constraint '" ++ name ++ "'") rhs)
  let terms ← m.checkedTerms name e
  let constraint : Constraint α := ⟨name, terms, relation, rhs - e.constant⟩
  pure (⟨m.id, m.constraints.length⟩, { m with constraints := m.constraints ++ [constraint] })

/-- Add a constraint, under the name of its position if it is given none. -/
def addConstraint (m : Model α) (name : Option String) (e : Affine α) (relation : Relation)
    (rhs : α) : Except (Fault α) (ConstraintHandle × Model α) :=
  m.addNamedConstraint (name.getD m.nextConstraintName) e relation rhs

def setObjective (m : Model α) (e : Affine α) (sense : Sense) : Except (Fault α) (Model α) := do
  let terms ← m.checkedTerms "objective" e
  if Number.isFinite e.constant then
    pure { m with objective := ⟨sense, terms, e.constant⟩ }
  else throw (.invalidCoefficient "objective constant" e.constant)

/-! ### Counting -/

/-- The sizes of a model. -/
structure Dimensions where
  vars : Nat
  constraints : Nat
  integers : Nat
  binaries : Nat
deriving DecidableEq, Repr

omit [Number α] in
/-- How many variables and constraints there are, how many variables take only
whole numbers, and how many of these are binary. -/
def dimensions (m : Model α) : Dimensions where
  vars := m.vars.length
  constraints := m.constraints.length
  integers := m.vars.countP (·.isIntegral)
  binaries := m.vars.countP fun v => v.kind == .binary

omit [Number α] in
/-- Whether some variable takes only whole numbers. -/
def isMixedInteger (m : Model α) : Bool := 0 < m.dimensions.integers

end Model

end Milp
