/-
`SearchTree` -- the record of a branch-and-bound search.

A search tree is a table of nodes that refer to each other by their positions.
Node 0 is the root. Every other node was added below a parent on one of its two
sides, and repeats the parent's cuts with one more at the end; a side that is
taken cannot be taken again. Nodes are never removed.
-/
import Milp.Number

set_option autoImplicit false

namespace Milp

/-- A bound that separates a subproblem from its parent. -/
structure Cut (α : Type) where
  id : Nat
  column : Nat
  /-- Whether the bound is an upper one. -/
  upper : Bool
  bound : α
deriving Repr

namespace Cut

variable {α : Type}

def symbol (c : Cut α) : String := if c.upper then "<=" else ">="

/-- A cut in words, given the name of its column. -/
def describe [Number α] (c : Cut α) (columnName : String) : String :=
  "cut " ++ toString c.id ++ ": " ++ columnName ++ " " ++ c.symbol ++ " " ++ Number.text c.bound

/-- A cut in words; the column is called by its position. -/
def text [Number α] (c : Cut α) : String := c.describe ("x" ++ toString c.column)

end Cut

/-- The two sides of a node. -/
inductive Side where
  | left
  | right
deriving DecidableEq, Repr

/-- What the search concluded at a node. -/
inductive NodeOutcome where
  /-- Not solved, or not yet. -/
  | pending
  /-- Split in two. -/
  | branched
  /-- Integral, and the best point so far. -/
  | incumbent
  /-- Integral, and no better than the best point so far. -/
  | integral
  /-- Given up because its bound cannot beat the best point so far. -/
  | pruned
  | infeasible
  | unbounded
deriving DecidableEq, Repr

def NodeOutcome.label : NodeOutcome → String
  | .pending => "Pending"
  | .branched => "Branched"
  | .incumbent => "Incumbent"
  | .integral => "Integral"
  | .pruned => "Pruned"
  | .infeasible => "Infeasible"
  | .unbounded => "Unbounded"

/-- One subproblem of a search. -/
structure Node (α : Type) where
  id : Nat
  parent : Option Nat
  left : Option Nat
  right : Option Nat
  depth : Nat
  /-- The cuts from the root down to this node. -/
  cuts : List (Cut α)
  /-- The optimum of the relaxation. -/
  relaxation : Option α
  /-- The point at which the relaxation has its optimum. -/
  values : List α
  outcome : NodeOutcome
deriving Repr

namespace Node

variable {α : Type}

/-- A node that has not been solved and has no children. -/
def fresh (id : Nat) (parent : Option Nat) (depth : Nat) (cuts : List (Cut α)) : Node α :=
  ⟨id, parent, none, none, depth, cuts, none, [], .pending⟩

def childOn (n : Node α) : Side → Option Nat
  | .left => n.left
  | .right => n.right

def withChild (n : Node α) (side : Side) (child : Nat) : Node α :=
  match side with
  | .left => { n with left := some child }
  | .right => { n with right := some child }

def lastCut? (n : Node α) : Option (Cut α) := n.cuts.getLast?

end Node

/-- The record of a search: its nodes in the order in which they were added. -/
structure SearchTree (α : Type) where
  nodes : Array (Node α)
  /-- There is always a root. -/
  size_pos : 0 < nodes.size

namespace SearchTree

variable {α : Type}

def rootId : Nat := 0

def initial : SearchTree α := ⟨#[Node.fresh rootId none 0 []], by simp⟩

instance : Inhabited (SearchTree α) := ⟨initial⟩

/-! ## Reading -/

def size (t : SearchTree α) : Nat := t.nodes.size

def root (t : SearchTree α) : Node α :=
  have := t.size_pos
  t.nodes[0]

def get? (t : SearchTree α) (id : Nat) : Option (Node α) := t.nodes[id]?

def parent? (t : SearchTree α) (id : Nat) : Option (Node α) := do
  let node ← t.get? id
  let parent ← node.parent
  t.get? parent

/-- The child of a node, if it is directly below it. -/
def child? (t : SearchTree α) (id child : Nat) : Option (Node α) := do
  let node ← t.get? id
  if node.left == some child || node.right == some child then t.get? child else none

/-- The nodes from a position upwards, for a bounded number of steps. -/
def ancestorsWithin (t : SearchTree α) : Nat → Nat → List (Node α)
  | 0, _ => []
  | steps + 1, id =>
    match t.get? id with
    | none => []
    | some node =>
      node :: (match node.parent with
        | none => []
        | some parent => t.ancestorsWithin steps parent)

def ancestors (t : SearchTree α) (id : Nat) : List (Node α) := t.ancestorsWithin t.size id

/-- The last node that produced an incumbent. -/
def incumbent? (t : SearchTree α) : Option (Node α) :=
  t.nodes.toList.reverse.find? fun node => node.outcome == .incumbent

/-! ## Growing and marking -/

/-- Change the node at a position, if there is one. -/
def modify (t : SearchTree α) (id : Nat) (change : Node α → Node α) : SearchTree α :=
  ⟨t.nodes.modify id change, by simpa using t.size_pos⟩

/-- Add a child below a node. Refused if the node is unknown or has a child on
that side. -/
def addChild? (t : SearchTree α) (parent : Nat) (side : Side) (cut : Cut α) :
    Option (Nat × SearchTree α) :=
  match t.get? parent with
  | none => none
  | some above =>
    if (above.childOn side).isSome then none
    else
      -- the child takes the next position, and its parent learns which
      let id := t.size
      let node := Node.fresh id (some parent) (above.depth + 1) (above.cuts ++ [cut])
      let grown : SearchTree α := ⟨t.nodes.push node, by simp⟩
      some (id, grown.modify parent fun above => above.withChild side id)

def mark (t : SearchTree α) (id : Nat) (outcome : NodeOutcome) : SearchTree α :=
  t.modify id fun node => { node with outcome := outcome }

def recordRelaxation (t : SearchTree α) (id : Nat) (values : List α) (optimum : α) :
    SearchTree α :=
  t.modify id fun node => { node with relaxation := some optimum, values := values }

end SearchTree

end Milp
