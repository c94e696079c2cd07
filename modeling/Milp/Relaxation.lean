/-
`Relaxation` -- a program without its demand for whole numbers.

The relaxation of a program is taken inside a box, one interval a column. What
it has to say is an optimal point, or that there is no point, or that the
objective has no bound. An oracle answers that question for one program and any
box; the search (`Milp.Search`) works with every oracle.

`Program.relaxBy` makes an oracle of a solver of linear programs. It settles by
itself what needs no linear program: an empty box, a program without columns, and
rows without terms. The rest goes to the solver; `Program.relax`, the oracle the
program runs with, takes the simplex method. A bound that is not finite is no
bound. A box may have more intervals than the program has columns; the others
stand for variables that nothing depends on.
-/
import Milp.Program
import Milp.Simplex

set_option autoImplicit false

namespace Milp

abbrev Box (α : Type) := List (Interval α)

/-- What a relaxation has to say. -/
inductive Relaxation (α : Type) where
  | solved (values : List α) (objective : α)
  | infeasible
  | unbounded
deriving Repr

/-- Answers the relaxation of one program in any box. -/
abbrev Oracle (α : Type) := Box α → Except (Fault α) (Relaxation α)

/-- The name under which branch and bound reports. -/
def branchAndBoundName : String := "branch-and-bound"

namespace Program

variable {α : Type} [Number α]

def isEmptyBox (box : Box α) : Bool := box.any fun b => Number.gt b.lower b.upper

/-- Whether a row holds where its left-hand side is zero. -/
def Row.holdsAtZero (r : Row α) : Bool := !Number.gt (r.relation.violation 0 r.rhs) 0

/-- A row as one that bounds its terms from above. -/
def Row.asLinear (r : Row α) : Simplex.Row α :=
  match r.relation with
  | .atLeast => ⟨r.terms.map fun (column, a) => (column, -a), false, -r.rhs⟩
  | relation => ⟨r.terms, relation == .equal, r.rhs⟩

/-- The linear rows of a program, up to the first that settles the matter: one
without terms that does not hold, or one that is not linear. `none` says that a
row cannot hold. -/
def linearRows : List (Row α) → Except (Fault α) (Option (List (Simplex.Row α)))
  | [] => .ok (some [])
  | r :: rest =>
    if r.terms.isEmpty then
      if r.holdsAtZero then linearRows rest else .ok none
    else if r.relation == .differs then
      .error (.unsupportedConstruct branchAndBoundName
        ("relation != in constraint '" ++ r.name ++ "'"))
    else (linearRows rest).map fun later => later.map fun rows => r.asLinear :: rows

/-- An interval with its finite bounds only. -/
def finiteBounds (b : Interval α) : Interval α :=
  ⟨if Number.isFinite b.lower then b.lower else Number.negInf,
    if Number.isFinite b.upper then b.upper else Number.posInf⟩

/-- What a column costs where the least cost is sought. -/
def costAt (p : Program α) (column : Nat) : α :=
  match p.sense with
  | .minimize => p.objectiveAt column
  | .maximize => -p.objectiveAt column

/-- The intervals of a box as columns of a linear program. -/
def linearColumns (p : Program α) (box : Box α) : List (Simplex.Column α) :=
  box.mapIdx fun index b => ⟨finiteBounds b, p.costAt index⟩

/-- The relaxation of a program in a box, where linear programs go to a given
solver. -/
def relaxBy (solve : Simplex.Solver α) (p : Program α) : Oracle α := fun box =>
  if isEmptyBox box then .ok .infeasible
  -- the point without coordinates is all there is
  else if p.columns.isEmpty then
    .ok (if p.rows.all fun r => Number.le (r.relation.violation 0 r.rhs) 0 then
        .solved [] p.constant
      else .infeasible)
  else do
    match ← linearRows p.rows with
    | none => pure .infeasible
    | some rows =>
      match solve (p.linearColumns box) rows with
      | .infeasible => pure .infeasible
      | .unbounded => pure .unbounded
      | .undecided => throw (.solverFailed branchAndBoundName "the number of pivots is exhausted")
      | .optimal point => pure (.solved point (p.objectiveValue point))

/-- The relaxation of a program in a box, by the simplex method with a given
noise. -/
def relax (noise : α) (p : Program α) : Oracle α := p.relaxBy (Simplex.solve noise)

end Program

end Milp
