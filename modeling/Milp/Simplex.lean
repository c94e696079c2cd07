/-
`Simplex` -- linear programs over variables with bounds.

A linear program asks for a point inside given bounds that satisfies given rows
and has the least cost. Every row gets a slack variable, so that it reads
`terms + slack = rhs`; the slack of an equation is zero, that of any other row is
not negative. At any time there is one *basic* variable a row. The others *rest*,
each at one of its bounds or, if it has none, at zero, and the tableau expresses
the basic variables by them.

At the start the slacks are basic, and every column rests at the bound that its
cost prefers. Two phases follow.

* While a basic variable is outside its bounds, it is sent to the bound that it
  violates, and a resting one takes its place. The one taken is the first whose
  reduced cost would change its sign. If none can be taken, the rows contradict
  the bounds.
* While moving a resting variable lowers the cost, it is moved, until it reaches
  its other bound or a basic variable reaches one of its own and takes its place.
  If nothing stops it, the cost has no bound.

If some column cannot rest where its cost prefers, the first phase goes by costs
that hold every column where it is, and the second one by the true costs.

Of several candidates the one with the steepest edge is taken, and among equally
good exchanges the one with the largest entry. `noise` is what counts as zero
when numbers are compared; with `noise = 0` over exact numbers all comparisons
are exact.
-/
import Milp.Interval

set_option autoImplicit false

namespace Milp.Simplex

variable {α : Type} [Number α]

/-! ## Programs -/

/-- A column: its bounds, infinite where it has none, and its cost. -/
structure Column (α : Type) where
  bounds : Interval α
  cost : α

/-- A row: its terms are at most its right-hand side or, in an equation, equal
to it. -/
structure Row (α : Type) where
  terms : List (Nat × α)
  equation : Bool
  rhs : α

/-- What there is to say about a linear program. -/
inductive Verdict (α : Type) where
  | optimal (point : List α)
  | infeasible
  | unbounded
  /-- The bound on the number of exchanges was reached. -/
  | undecided
deriving Repr

/-- Says what there is to say about a linear program. -/
abbrev Solver (α : Type) := List (Column α) → List (Row α) → Verdict α

/-! ## Variables in a tableau -/

/-- A variable with its value. Columns come first in the numbering, then the
slacks of the rows. -/
structure Placed (α : Type) where
  index : Nat
  bounds : Interval α
  value : α

instance : Inhabited (Placed α) := ⟨⟨0, ⟨0, 0⟩, 0⟩⟩

def Placed.atLower (v : Placed α) : Bool := v.value == v.bounds.lower

def Placed.atUpper (v : Placed α) : Bool := v.value == v.bounds.upper

/-- By how much a variable is outside its bounds, if it is. -/
def Placed.excess? (noise : α) (v : Placed α) : Option α :=
  if Number.lt v.value (v.bounds.lower - noise) then some (v.bounds.lower - v.value)
  else if Number.lt (v.bounds.upper + noise) v.value then some (v.value - v.bounds.upper)
  else none

def Placed.violated (v : Placed α) : α :=
  if Number.lt v.value v.bounds.lower then v.bounds.lower else v.bounds.upper

/-- Where a column rests at the start. -/
def restingValue (c : Column α) : α :=
  let b := c.bounds
  if b.lower == b.upper then b.lower
  else match Number.isFinite b.lower, Number.isFinite b.upper with
    | false, false => 0
    | true, false => b.lower
    | false, true => b.upper
    -- between two finite bounds the cost decides
    | true, true => if Number.lt c.cost 0 then b.upper else b.lower

/-- Whether a column can rest where its cost prefers. -/
def restsWell (c : Column α) : Bool :=
  let b := c.bounds
  if b.lower == b.upper then true
  else if Number.gt c.cost 0 then Number.isFinite b.lower
  else if Number.lt c.cost 0 then Number.isFinite b.upper
  else c.cost == 0 || Number.isFinite b.lower || Number.isFinite b.upper

/-- The cost that holds a resting variable where it is. -/
def holdingCost (v : Placed α) : α :=
  match v.atLower, v.atUpper with
  | true, false => 1
  | false, true => -1
  | _, _ => 0

/-! ## Tableaux -/

/-- Basic variables expressed by resting ones: basic variable `r` plus the sum of
`entries r c` times resting variable `c` is the same at every point. -/
structure Tableau (α : Type) where
  /-- How many columns the program has. -/
  width : Nat
  basic : Array (Placed α)
  resting : Array (Placed α)
  entries : Array (Array α)
  /-- How the cost grows with each resting variable. -/
  costs : Array α

/-- The first of several positions with the greatest key above minus infinity. -/
def greatest? (keyed : List (Nat × α)) : Option Nat :=
  let start : Option Nat × α := (none, Number.negInf)
  (keyed.foldl (fun best (position, key) =>
    if Number.gt key best.2 then (some position, key) else best) start).1

def leastOf (start : α) (xs : List α) : α :=
  xs.foldl (fun least x => if Number.lt x least then x else least) start

/-- Subtract a multiple from a number. Nothing of something is nothing, however
large. -/
def less (x factor a : α) : α := if a == 0 then x else x - factor * a

namespace Tableau

def row (t : Tableau α) (r : Nat) : Array α := t.entries.getD r #[]

/-- The entries of a resting variable, by row. -/
def column (t : Tableau α) (c : Nat) : Array α :=
  let zero : α := 0
  t.entries.map fun entries => entries.getD c zero

/-- The square of the length of the edge along which a basic variable moves:
of its row in the inverse of the basis. The columns of that inverse belong to the
slacks. -/
def rowSteepness (t : Tableau α) (r : Nat) : α :=
  let own : α := if (t.basic.getD r default).index < t.width then 0 else 1
  (t.resting.zip (t.row r)).foldl (fun total (v, a) =>
    if v.index < t.width then total else total + a * a) own

/-- The square of the length of the edge along which a resting variable moves. -/
def columnSteepness (t : Tableau α) (c : Nat) : α :=
  (t.column c).foldl (fun total a => total + a * a) 1

/-- Let a resting variable move by a step without an exchange. -/
def shift (t : Tableau α) (c : Nat) (step value : α) : Tableau α :=
  { t with
    basic := (t.basic.zip (t.column c)).map fun (v, a) => { v with value := less v.value step a }
    resting := t.resting.modify c fun v => { v with value := value } }

/-- Exchange a basic variable, which goes to a value, for a resting one. -/
def exchange (t : Tableau α) (r c : Nat) (value : α) : Tableau α :=
  let zero : α := 0
  let pivotRow := t.row r
  let entry := pivotRow.getD c zero
  let leaving := t.basic.getD r default
  let entering := t.resting.getD c default
  -- how far the entering variable moves until the leaving one has its value
  let step := (leaving.value - value) / entry
  -- the row solved for the entering variable
  let scaled := (pivotRow.map (· / entry)).setIfInBounds c (1 / entry)
  let price := t.costs.getD c zero / entry
  { t with
    basic := ((t.basic.zip (t.column c)).map fun (v, a) =>
        { v with value := less v.value step a }).setIfInBounds r
      { entering with value := entering.value + step }
    resting := t.resting.setIfInBounds c { leaving with value := value }
    entries := t.entries.mapIdx fun i entries =>
      if i = r then scaled
      else
        let factor := entries.getD c zero
        (Array.zipWith (fun a b => less a factor b) entries scaled).setIfInBounds c
          (-factor / entry)
    costs := (Array.zipWith (fun d a => less d price a) t.costs pivotRow).setIfInBounds c (-price) }

/-! ## Towards the bounds -/

/-- The basic variable outside its bounds that is sent back first. -/
def leaving? (noise : α) (t : Tableau α) : Option Nat :=
  greatest? <| t.basic.toList.zipIdx.filterMap fun (v, r) =>
    (v.excess? noise).map fun excess => (r, excess * excess / t.rowSteepness r)

/-- Whether a resting variable can move so that a basic one, in whose row it has
an entry, rises (or falls). -/
def canPush (noise : α) (rising : Bool) (v : Placed α) (entry : α) : Bool :=
  if Number.le (Number.abs entry) noise then false
  else if Number.lt entry 0 == rising then !v.atUpper
  else !v.atLower

/-- A reduced cost; one that already has the wrong sign counts as zero. -/
def standingCost (v : Placed α) (cost : α) : α :=
  if (v.atLower && Number.lt cost 0) || (v.atUpper && Number.gt cost 0) then 0 else cost

/-- The resting variable that takes the place of a basic one which rises (or
falls) to its bound. -/
def replacement? (noise : α) (t : Tableau α) (r : Nat) (rising : Bool) : Option Nat :=
  let candidates := (t.resting.zip ((t.row r).zip t.costs)).toList.zipIdx.filterMap
    fun ((v, entry, cost), c) =>
      if canPush noise rising v entry then
        some (c, Number.abs (standingCost v cost), Number.abs entry)
      else none
  -- among the candidates within the noise of the least ratio, the largest entry is the
  -- safest to divide by
  let limit := leastOf Number.posInf (candidates.map fun (_, cost, size) => (cost + noise) / size)
  greatest? <| candidates.filterMap fun (c, cost, size) =>
    if Number.le (cost / size) limit then some (c, size) else none

/-! ## Towards the least cost -/

/-- Whether moving a resting variable lowers the cost. -/
def lowersCost (noise : α) (v : Placed α) (cost : α) : Bool :=
  !(Number.le (Number.abs cost) noise) && !(v.atLower && Number.gt cost 0)
    && !(v.atUpper && Number.lt cost 0)

/-- The resting variable to move, and whether it rises. -/
def entering? (noise : α) (t : Tableau α) : Option (Nat × Bool) :=
  let candidates := (t.resting.zip t.costs).toList.zipIdx.filterMap fun ((v, cost), c) =>
    if lowersCost noise v cost then some (c, cost) else none
  -- the steepest edge: the fall in cost for each unit of its length
  let chosen := greatest? <| candidates.map fun (c, cost) =>
    (c, cost * cost / t.columnSteepness c)
  chosen.map fun c => (c, (candidates.lookup c).any fun cost => Number.lt cost 0)

/-- How far a basic variable is from a bound that it approaches, rising or
falling; no distance if it is beyond. -/
def room (v : Placed α) (rising : Bool) : α :=
  let distance := if rising then v.bounds.upper - v.value else v.value - v.bounds.lower
  if Number.gt distance 0 then distance else 0

/-- What stops a resting variable that moves. -/
inductive Stop (α : Type) where
  /-- Its own other bound. -/
  | ownBound (value : α)
  /-- A basic variable that reaches a bound. -/
  | basic (r : Nat) (value : α)
  | nothing

/-- What stops a resting variable that rises (or falls). -/
def stop (noise : α) (t : Tableau α) (c : Nat) (rising : Bool) : Stop α :=
  let v := t.resting.getD c default
  let other := if rising then v.bounds.upper else v.bounds.lower
  let blockers := (t.basic.zip (t.column c)).toList.zipIdx.filterMap fun ((basic, entry), r) =>
    let size := Number.abs entry
    let up := Number.lt entry 0 == rising
    if Number.le size noise then none
    else some (r, if up then basic.bounds.upper else basic.bounds.lower, room basic up, size)
  let limit := leastOf (Number.abs (other - v.value))
    (blockers.map fun (_, _, room, size) => (room + noise) / size)
  if !Number.isFinite limit then .nothing
  else
    -- as in `replacement?`, the largest entry among the blockers that are near enough
    let near := blockers.filter fun (_, _, room, size) => Number.le (room / size) limit
    match greatest? (near.map fun (r, _, _, size) => (r, size)) with
    | some r =>
      match near.lookup r with
      | some (bound, _) => .basic r bound
      | none => .ownBound other
    | none => .ownBound other

end Tableau

/-! ## Phases -/

/-- How a phase ends. -/
inductive PhaseEnd (α : Type) where
  | done (t : Tableau α)
  | stuck
  | undecided

/-- Send basic variables to their bounds, for a bounded number of exchanges. -/
def restore (noise : α) : Nat → Tableau α → PhaseEnd α
  | 0, _ => .undecided
  | exchanges + 1, t =>
    match t.leaving? noise with
    | none => .done t
    | some r =>
      let v := t.basic.getD r default
      let bound := v.violated
      match t.replacement? noise r (Number.lt v.value bound) with
      | none => .stuck
      | some c => restore noise exchanges (t.exchange r c bound)

/-- Lower the cost, for a bounded number of moves. -/
def improve (noise : α) : Nat → Tableau α → PhaseEnd α
  | 0, _ => .undecided
  | moves + 1, t =>
    match t.entering? noise with
    | none => .done t
    | some (c, rising) =>
      match t.stop noise c rising with
      | .nothing => .stuck
      | .basic r value => improve noise moves (t.exchange r c value)
      | .ownBound value =>
        improve noise moves (t.shift c (value - (t.resting.getD c default).value) value)

/-! ## Solving -/

/-- The entries of a row, by column. -/
def denseRow (width : Nat) (r : Row α) : Array α :=
  r.terms.foldl (fun entries (column, a) => entries.modify column (· + a))
    (Array.replicate width 0)

def start (columns : List (Column α)) (rows : List (Row α)) : Tableau α :=
  let width := columns.length
  let resting := columns.mapIdx fun index c => (⟨index, c.bounds, restingValue c⟩ : Placed α)
  let entries := rows.map (denseRow width)
  -- a slack takes up what the resting columns leave of the right-hand side
  let basic := (rows.zip entries).mapIdx fun index (r, entries) =>
    let reached := (List.zipWith (fun a (v : Placed α) => a * v.value) entries.toList resting).foldl
      (· + ·) (0 : α)
    (⟨width + index, ⟨0, if r.equation then 0 else Number.posInf⟩, r.rhs - reached⟩ : Placed α)
  ⟨width, basic.toArray, resting.toArray, entries.toArray, (columns.map (·.cost)).toArray⟩

/-- Whether every basic variable is within its bounds. -/
def Tableau.isFeasible (t : Tableau α) : Bool :=
  t.basic.all fun v => Number.le v.bounds.lower v.value && Number.le v.value v.bounds.upper

/-- Replace the reduced costs by those of given costs. -/
def Tableau.withCosts (t : Tableau α) (costs : Array α) : Tableau α :=
  let zero : α := 0
  let costOf (v : Placed α) : α := costs.getD v.index zero
  { t with
    costs := (t.basic.zip t.entries).foldl (fun reduced (v, entries) =>
      let cost := costOf v
      Array.zipWith (fun d a => less d cost a) reduced entries) (t.resting.map costOf) }

def Tableau.point (t : Tableau α) : List α :=
  let values := (t.resting ++ t.basic).foldl (fun (values : Array α) v =>
    values.setIfInBounds v.index v.value) (Array.replicate t.width 0)
  values.toList

def solve (noise : α) (columns : List (Column α)) (rows : List (Row α)) : Verdict α :=
  let moves := 1000 * (columns.length + rows.length + 1)
  let begun := start columns rows
  let restWell := columns.all restsWell
  let held := if restWell || begun.isFeasible then begun
    else { begun with costs := begun.resting.map holdingCost }
  match restore noise moves held with
  | .undecided => .undecided
  | .stuck => .infeasible
  | .done feasible =>
    if restWell then .optimal feasible.point
    else
      match improve noise moves (feasible.withCosts begun.costs) with
      | .undecided => .undecided
      | .stuck => .unbounded
      | .done best => .optimal best.point

end Milp.Simplex
