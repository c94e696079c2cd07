/-
`Search` -- depth-first branch and bound.

The search keeps a stack of boxes, one for each subproblem that is still open,
and the best point found so far, the incumbent. One step takes the top box and
asks an oracle for its relaxation.

* No point, or an unbounded objective: the node is closed. An unbounded
  objective at the root ends the search.
* A point whose objective does not beat the incumbent: the node is pruned.
* A point with a column that should be whole and is not: the node is split at
  that column's value, and the two halves are put on the stack. Of several such
  columns the one whose fractional part is nearest to one half is taken.
* Any other point is rounded at the columns that should be whole. If the rounded
  point satisfies every row it may become the incumbent. If not, the node is
  split at the column that is farthest from whole, as long as there is one whose
  halves are both smaller than the box.

Between steps the search may be stopped: by a signal, by the time, or by the
number of nodes. What it sees when it looks up is a `Sighting`; a run is given
one for every number of nodes explored, and a bound on the number of its steps.
A run that is stopped or reaches its bound has lost nothing of what it found.
-/
import Milp.Relaxation
import Milp.Limits
import Milp.Answer

set_option autoImplicit false

namespace Milp.Search

variable {α : Type} [Number α]

/-! ## States -/

/-- An open subproblem: a node of the tree and its box. -/
structure Pending (α : Type) where
  node : Nat
  box : Box α
deriving Repr

/-- The best point found so far. -/
structure Incumbent (α : Type) where
  values : List α
  objective : α
deriving Repr

/-- What the search knows between two steps. -/
structure State (α : Type) where
  tree : SearchTree α
  stack : List (Pending α)
  incumbent : Option (Incumbent α)
  cuts : Nat
  explored : Nat
  relaxations : Nat

/-- The bounds of a column at the root; those of a whole column are rounded
inward. -/
def rootBounds (c : Program.Column α) : Interval α :=
  if c.integer then ⟨Number.ceil c.bounds.lower, Number.floor c.bounds.upper⟩ else c.bounds

def rootBox (p : Program α) : Box α := p.columns.map rootBounds

def State.initial (p : Program α) : State α where
  tree := .initial
  stack := [⟨SearchTree.rootId, rootBox p⟩]
  incumbent := none
  cuts := 0
  explored := 0
  relaxations := 0

/-! ## Choosing a column -/

/-- The first of several items with the least key. -/
def leastBy {β : Type} (key : β → α) : List β → Option β
  | [] => none
  | x :: xs => some (xs.foldl (fun best y => if Number.lt (key y) (key best) then y else best) x)

/-- The last of several items with the greatest key. -/
def greatestBy {β : Type} (key : β → α) : List β → Option β
  | [] => none
  | x :: xs => some (xs.foldl (fun best y => if Number.lt (key y) (key best) then best else y) x)

/-- How far the fractional part of a number is from one half. -/
def distanceFromHalf (x : α) : α := Number.abs (x - Number.floor x - 0.5)

/-- The whole column with the most fractional value. -/
def branchingColumn? (p : Program α) (tolerance : α) (values : List α) : Option Nat :=
  leastBy (fun i => distanceFromHalf (Number.valueAt values i)) <|
    p.integerColumns.filter fun i =>
      Number.gt (Number.integralityGap (Number.valueAt values i)) tolerance

def boundsAt (box : Box α) (column : Nat) : Interval α := box.getD column .free

/-- Whether splitting at a value makes both halves smaller than the interval. -/
def splitsProperly (b : Interval α) (value : α) : Bool :=
  Number.lt b.lower (Number.ceil value) && Number.lt (Number.floor value) b.upper

/-- The whole column farthest from a whole value, among those that split
properly. -/
def leastIntegralColumn? (p : Program α) (box : Box α) (values : List α) : Option Nat :=
  greatestBy (fun i => Number.integralityGap (Number.valueAt values i)) <|
    p.integerColumns.filter fun i =>
      splitsProperly (boundsAt box i) (Number.valueAt values i)
        && Number.gt (Number.integralityGap (Number.valueAt values i)) 0

/-! ## Splitting a node -/

def lowerHalf (b : Interval α) (value : α) : Interval α :=
  ⟨b.lower, Number.min (Number.floor value) b.upper⟩

def upperHalf (b : Interval α) (value : α) : Interval α :=
  ⟨Number.max (Number.ceil value) b.lower, b.upper⟩

/-- Whether a larger value of a column is the better direction. A column without
influence on the objective counts as one that lowers it. -/
def prefersUp (p : Program α) (column : Nat) : Bool :=
  let grows := Number.gt (p.objectiveAt column) 0
  match p.sense with
  | .minimize => !grows
  | .maximize => grows

omit [Number α] in
/-- Add a child and its box; nothing is added where there is a child already. -/
def addOpen (tree : SearchTree α) (parent : Nat) (side : Side) (cut : Cut α) (box : Box α) :
    SearchTree α × List (Pending α) :=
  match tree.addChild? parent side cut with
  | some (id, grown) => (grown, [⟨id, box⟩])
  | none => (tree, [])

/-- Split a node at the value of a column. The half that the objective prefers
comes to lie on top of the stack. -/
def split (p : Program α) (s : State α) (here : Pending α) (column : Nat) (value : α) : State α :=
  let bounds := boundsAt here.box column
  let lowerCut : Cut α := ⟨s.cuts + 1, column, true, Number.floor value⟩
  let upperCut : Cut α := ⟨s.cuts + 2, column, false, Number.ceil value⟩
  let (tree, left) :=
    addOpen s.tree here.node .left lowerCut (here.box.set column (lowerHalf bounds value))
  let (tree, right) :=
    addOpen tree here.node .right upperCut (here.box.set column (upperHalf bounds value))
  -- what comes first is on top, and is visited before the other half
  let children := if prefersUp p column then right ++ left else left ++ right
  { s with
    tree := tree.mark here.node .branched
    stack := children ++ s.stack
    cuts := s.cuts + 2 }

/-! ## Visiting a node -/

/-- Round a point at the columns that should be whole. -/
def snap (p : Program α) (values : List α) : List α :=
  List.zipWith (fun v (c : Program.Column α) => if c.integer then Number.round v else v)
    values p.columns

/-- Whether an objective beats the incumbent; everything beats none. -/
def beats (p : Program α) (tolerance : α) (incumbent : Option (Incumbent α)) (objective : α) :
    Bool :=
  match incumbent with
  | none => true
  | some best => p.sense.improves objective best.objective tolerance

/-- Take a rounded point as the incumbent if it is better. -/
def accept (p : Program α) (tolerance : α) (s : State α) (node : Nat) (snapped : List α) :
    State α :=
  let objective := p.objectiveValue snapped
  if beats p tolerance s.incumbent objective then
    { s with incumbent := some ⟨snapped, objective⟩, tree := s.tree.mark node .incumbent }
  else { s with tree := s.tree.mark node .integral }

/-- Where to split a node with a solved relaxation; none if its point is to be
accepted. -/
def splitColumn? (p : Program α) (tolerance : α) (box : Box α) (values : List α) :
    Option Nat :=
  match branchingColumn? p tolerance values with
  | some column => some column
  | none =>
    if p.satisfiesRows (snap p values) tolerance then none
    else leastIntegralColumn? p box values

def visit (p : Program α) (tolerance : α) (s : State α) (here : Pending α) (values : List α)
    (objective : α) : State α :=
  let s := { s with tree := s.tree.recordRelaxation here.node values objective }
  if !beats p tolerance s.incumbent objective then
    { s with tree := s.tree.mark here.node .pruned }
  else
    -- the point of the relaxation is rounded only where the node is not split
    match splitColumn? p tolerance here.box values with
    | some column => split p s here column (Number.valueAt values column)
    | none => accept p tolerance s here.node (snap p values)

/-! ## Steps and runs -/

/-- What the search sees when it looks up between two nodes. -/
structure Sighting where
  stopped : Bool
  elapsed : Duration
deriving DecidableEq, Repr

/-- Why the search must not take another node, if it must not. -/
def haltStatus? (limits : Limits α) (explored : Nat) (sighting : Sighting) :
    Option Answer.Status :=
  -- a signal goes before the clock, and the clock before the count
  if sighting.stopped then some .interrupted
  else if limits.timeLimit.nanoseconds ≤ sighting.elapsed.nanoseconds then some .timeLimit
  else match limits.nodeLimit with
    | some limit => if limit ≤ explored then some .nodeLimit else none
    | none => none

/-- How a step ends. -/
inductive Step (α : Type) where
  | proceed (s : State α)
  | finished (s : State α) (status : Answer.Status)
  | failed (fault : Fault α)

def conclude (p : Program α) (tolerance : α) (s : State α) (here : Pending α) :
    Relaxation α → Step α
  | .infeasible => .proceed { s with tree := s.tree.mark here.node .infeasible }
  | .unbounded =>
    let s := { s with tree := s.tree.mark here.node .unbounded }
    if here.node == SearchTree.rootId then .finished s .unbounded else .proceed s
  | .solved values objective => .proceed (visit p tolerance s here values objective)

def step (p : Program α) (limits : Limits α) (oracle : Oracle α) (sighting : Sighting)
    (s : State α) : Step α :=
  match s.stack with
  | [] => .finished s (if s.incumbent.isSome then .optimal else .infeasible)
  | here :: rest =>
    match haltStatus? limits s.explored sighting with
    | some status => .finished s status
    | none =>
      match oracle here.box with
      | .error fault => .failed fault
      | .ok relaxation =>
        conclude p limits.tolerance
          { s with
            stack := rest
            explored := s.explored + 1
            relaxations := s.relaxations + 1 }
          here relaxation

omit [Number α] in
/-- The answer of a search that ends in a state. An unbounded problem has no
solution, whatever was found before. -/
def State.answer (s : State α) (status : Answer.Status) : Answer α :=
  let best := if status == .unbounded then none else s.incumbent
  { status := status
    values := best.map (·.values)
    objective := best.map (·.objective)
    iterations := s.relaxations
    nodes := s.explored
    message := ""
    tree := some s.tree }

/-- How a run ends. -/
inductive Run (α : Type) where
  | answered (answer : Answer α)
  | failed (fault : Fault α)
  /-- The bound on the number of steps was reached. -/
  | unfinished (s : State α)

/-- Run from a state, for a bounded number of steps. -/
def runFrom (p : Program α) (limits : Limits α) (oracle : Oracle α) (watch : Nat → Sighting) :
    Nat → State α → Run α
  | 0, s => .unfinished s
  | steps + 1, s =>
    match step p limits oracle (watch s.explored) s with
    | .proceed next => runFrom p limits oracle watch steps next
    | .finished last status => .answered (last.answer status)
    | .failed fault => .failed fault

/-- Run from the start, for a bounded number of steps. -/
def run (p : Program α) (limits : Limits α) (oracle : Oracle α) (watch : Nat → Sighting)
    (steps : Nat) : Run α :=
  runFrom p limits oracle watch steps (.initial p)

end Milp.Search
