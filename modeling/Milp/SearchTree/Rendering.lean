/-
`Rendering` -- the texts of a search tree.

Both texts list the nodes in the order of their positions, indented by depth.
`SearchTree.text` needs nothing but the tree. `SearchTree.report` is written
against the model that was searched: it calls columns by their names, and below
a node that has a point it lists the values and how much room each constraint
leaves there.
-/
import Milp.SearchTree
import Milp.Model.Rendering

set_option autoImplicit false

namespace Milp.SearchTree

variable {α : Type} [Number α]

omit [Number α] in
def indent (node : Node α) : String := String.join (List.replicate node.depth "  ")

/-- The first line of a node, given the words for its cut. -/
def heading (node : Node α) (cut : String) : String :=
  let bound := match node.relaxation with
    | some optimum => " z = " ++ Number.text optimum
    | none => ""
  indent node ++ "node " ++ toString node.id ++ " [" ++ node.outcome.label ++ "]" ++ bound ++ cut

def text (t : SearchTree α) : String :=
  joinLines <| t.nodes.toList.map fun node =>
    heading node (match node.lastCut? with
      | some cut => " (" ++ cut.text ++ ")"
      | none => "")

/-! ## The report -/

/-- A cut in words; the column is called by its name if it has one. -/
def reportCut (m : Model α) (cut : Cut α) : String :=
  match m.vars[cut.column]? with
  | some v => cut.describe v.name
  | none => cut.text

omit [Number α] in
/-- Whether a node has a point to show: a value for every variable. -/
def hasPoint (m : Model α) (node : Node α) : Bool := node.values.length == m.vars.length

/-- The values at a node, by name. -/
def reportValues (m : Model α) (node : Node α) : String :=
  ", ".intercalate <| List.zipWith (fun v x => v.name ++ " = " ++ Number.text x)
    m.vars node.values

/-- The room that each constraint leaves at a node. -/
def reportSlacks (m : Model α) (node : Node α) : String :=
  ", ".intercalate <| m.constraints.map fun c =>
    c.name ++ " = " ++ Number.text (c.rhs - c.lhs node.values)

def reportNode (m : Model α) (node : Node α) : List String :=
  let first := heading node (match node.lastCut? with
    | some cut => " (added " ++ reportCut m cut ++ ")"
    | none => "")
  let values :=
    if hasPoint m node then [indent node ++ "  values: " ++ reportValues m node] else []
  let slacks :=
    if hasPoint m node && !m.constraints.isEmpty then
      [indent node ++ "  slacks: " ++ reportSlacks m node]
    else []
  first :: (values ++ slacks)

def report (t : SearchTree α) (m : Model α) : String :=
  joinLines (t.nodes.toList.flatMap (reportNode m))

end Milp.SearchTree
