/-
`Program` -- a model in the form that solvers start from.

A program has one column a variable and one row a constraint, in the order of
the model. References to variables have become column positions, and each column
knows its coefficient in the objective. A model becomes a program only if every
construct in it can be expressed.
-/
import Milp.Capabilities

set_option autoImplicit false

namespace Milp

/-- A variable of a program. -/
structure Program.Column (α : Type) where
  name : String
  bounds : Interval α
  integer : Bool
  objective : α
deriving Repr

/-- A constraint of a program; its terms are by column. -/
structure Program.Row (α : Type) where
  name : String
  terms : List (Nat × α)
  relation : Relation
  rhs : α
deriving Repr

/-- A mixed-integer linear program. -/
structure Program (α : Type) where
  columns : List (Program.Column α)
  rows : List (Program.Row α)
  sense : Sense
  constant : α
deriving Repr

namespace Program

variable {α : Type} [Number α]

/-! ## Evaluation -/

/-- The left-hand side of a row at a point. -/
def Row.lhs (r : Row α) (values : List α) : α :=
  Number.weightedSum r.terms (Number.valueAt values)

/-- Whether a row holds at a point, within the tolerance times the larger of one
and the magnitude of its right-hand side. -/
def Row.holds (r : Row α) (values : List α) (tolerance : α) : Bool :=
  Number.le (r.relation.violation (r.lhs values) r.rhs)
    (tolerance * Number.max (Number.abs r.rhs) 1)

def satisfiesRows (p : Program α) (values : List α) (tolerance : α) : Bool :=
  p.rows.all fun r => r.holds values tolerance

def objectiveValue (p : Program α) (values : List α) : α :=
  Number.sum (List.zipWith (fun c v => c.objective * v) p.columns values) + p.constant

omit [Number α] in
/-- Whether the column at a position takes only whole numbers. -/
def isInteger (p : Program α) (column : Nat) : Bool :=
  (p.columns[column]?.map (·.integer)).getD false

omit [Number α] in
/-- The positions of the columns that take only whole numbers. -/
def integerColumns (p : Program α) : List Nat :=
  (List.range p.columns.length).filter p.isInteger

/-- The objective coefficient of the column at a position. -/
def objectiveAt (p : Program α) (column : Nat) : α :=
  (p.columns[column]?.map (·.objective)).getD 0

/-! ## From models -/

/-- The objective coefficient that terms give to a column, from left to right. -/
def collectCoefficient (terms : List (Handle × α)) (column : Nat) : α :=
  (terms.filter fun (h, _) => h.index == column).foldl (fun total (_, c) => total + c) 0

def columnsOf (m : Model α) : List (Column α) :=
  m.vars.mapIdx fun index v =>
    ⟨v.name, v.bounds, v.isIntegral, collectCoefficient m.objective.terms index⟩

def rowOf (c : Constraint α) : Row α where
  name := c.name
  terms := (c.terms.filter fun (_, a) => !(a == 0)).map fun (h, a) => (h.index, a)
  relation := c.relation
  rhs := c.rhs

/-- The program of a model, for a solver with given capabilities. -/
def ofModel (m : Model α) (backend : String) (capabilities : Capabilities) :
    Except (Fault α) (Program α) :=
  (capabilities.checkSupport backend m).map fun _ =>
    { columns := columnsOf m
      rows := m.constraints.map rowOf
      sense := m.objective.sense
      constant := m.objective.constant }

end Program

end Milp
